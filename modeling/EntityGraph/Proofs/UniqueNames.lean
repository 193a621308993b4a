import EntityGraph.Proofs.Forgetting
import EntityGraph.FieldType.Names
import Mathlib.Data.List.Basic
import Mathlib.Data.List.Induction

/-!
# The two names together identify a type

Names may hold any characters, so neither the escaped nor the generic name of a type can be
read back alone.  Together they can, from the right: what a type puts after its last name stands
in the generic name only (`[]` and `>`), what it puts before stands in both (`_`, and `<` or
`, `), and so the last name ends where the generic name stops closing.  A reference with an empty
list of arguments breaks this, since its `<>` stands for nothing in the escaped name.

    t.Full → t.escapedName = t'.escapedName → t.genericName = t'.genericName →
      t.bare = t'.bare                                                  (bare_eq_of_names_eq)

Only one of the types has to be `Full`: the two names show how many empty lists there are
(`count_genericName`).
-/

namespace EntityGraph.FieldType

/-! ## Algorithm -/

mutual

/-- The number of empty lists of arguments, at any depth. -/
def emptyLists : FieldType → Nat
  | .list element _ => element.emptyLists
  | .named .. => 0
  | .generic _ args _ => if args.isEmpty then 1 else emptyListsAll args

def emptyListsAll : List FieldType → Nat
  | [] => 0
  | a :: rest => a.emptyLists + emptyListsAll rest

end

/-- No list of arguments in the type is empty. -/
def Full (ty : FieldType) : Prop := ty.emptyLists = 0

instance (ty : FieldType) : Decidable ty.Full := inferInstanceAs (Decidable (ty.emptyLists = 0))

/-- What stands in a generic name from the opening of a list of arguments to the last of them:
the arguments before it, each with its comma. -/
def precedingArgs (args : List FieldType) : List Char :=
  '<' :: args.flatMap fun a => a.genericName.toList ++ [',', ' ']

/-! ## Lemmas -/

section

variable (element : FieldType) (hooks : Hooks) (name : String) (args : List FieldType)
  (a : FieldType) (fileName : Option String)

theorem toList_escapedName_list :
    (list element hooks).escapedName.toList = '_' :: element.escapedName.toList := by
  rw [escapedName, String.toList_append]; rfl

theorem toList_genericName_list :
    (list element hooks).genericName.toList = element.genericName.toList ++ ['[', ']'] := by
  rw [genericName, String.toList_append]; rfl

theorem toList_escapedName_generic : (generic name args fileName).escapedName.toList =
    name.toList ++ (escapedArgs args).toList := by
  rw [escapedName, String.toList_append]

theorem toList_escapedArgs_concat : (escapedArgs (args ++ [a])).toList =
    (escapedArgs args).toList ++ '_' :: a.escapedName.toList := by
  induction args with
  | nil => simp [escapedArgs, String.toList_append]
  | cons b rest ih =>
    rw [List.cons_append, escapedArgs, escapedArgs, String.toList_append, String.toList_append, ih]
    simp

theorem cons_intercalate_concat : '<' :: (", ".intercalate (genericNames (args ++ [a]))).toList =
    precedingArgs args ++ a.genericName.toList := by
  rw [precedingArgs, List.cons_append]
  congr 1
  induction args with
  | nil => simp [genericNames]
  | cons b rest ih =>
    have hne : genericNames (rest ++ [a]) ≠ [] := by cases rest <;> simp [genericNames]
    rw [List.cons_append, genericNames, String.intercalate_cons_of_ne_nil hne,
      String.toList_append, String.toList_append, ih]
    simp

theorem precedingArgs_of_ne_nil {args : List FieldType} (h : args ≠ []) : precedingArgs args =
    '<' :: (", ".intercalate (genericNames args)).toList ++ [',', ' '] := by
  obtain ⟨init, a, rfl⟩ := args.eq_nil_or_concat'.resolve_left h
  rw [cons_intercalate_concat]
  simp [precedingArgs]

theorem toList_genericName_generic : (generic name args fileName).genericName.toList =
    name.toList ++ '<' :: (", ".intercalate (genericNames args)).toList ++ ['>'] := by
  rw [genericName, String.toList_append, String.toList_append, String.toList_append]
  simp

theorem getLast?_genericName_list :
    (list element hooks).genericName.toList.getLast? = some ']' := by
  rw [toList_genericName_list]; simp

theorem getLast?_genericName_generic :
    (generic name args fileName).genericName.toList.getLast? = some '>' := by
  rw [toList_genericName_generic, List.getLast?_concat]

end

theorem emptyListsAll_eq_zero {args : List FieldType} :
    emptyListsAll args = 0 ↔ ∀ a ∈ args, a.Full := by
  induction args with
  | nil => simp [emptyListsAll]
  | cons a rest ih => simp [emptyListsAll, Full, ih]

theorem full_generic_iff {name : String} {args : List FieldType} {fileName : Option String} :
    (generic name args fileName).Full ↔ args ≠ [] ∧ ∀ a ∈ args, a.Full := by
  rw [Full, emptyLists, ← emptyListsAll_eq_zero]
  cases args <;> simp

/-! ## Reading from the right -/

/-- What may stand in front of a type in an escaped name. -/
def AfterBar (l : List Char) : Prop := ∀ c ∈ l.getLast?, c = '_'

/-- What may stand in front of a type in a generic name. -/
def AfterOpening (l : List Char) : Prop := ∀ c ∈ l.getLast?, c = '<' ∨ c = ' '

/-- What may stand behind the last name of a type in a generic name. -/
def Closing (l : List Char) : Prop := ∀ c ∈ l, c = '>' ∨ c = '[' ∨ c = ']'

theorem afterBar_concat (l : List Char) : AfterBar (l ++ ['_']) := by simp [AfterBar]

theorem afterBar_append {l m : List Char} (hl : AfterBar l) (hm : AfterBar m) :
    AfterBar (l ++ m) := by
  intro c hc
  cases hlast : m.getLast? with
  | none => exact hl c (by simpa [hlast] using hc)
  | some b => exact hm c (by simpa [hlast] using hc)

/-- The same characters moved past a word: the last of them is one of those moved. -/
theorem exists_getLast_mem {y z m closing : List Char} (h : y ++ m = z ++ (m ++ closing))
    (hne : closing ≠ []) : ∃ c ∈ y.getLast?, c ∈ closing := by
  rcases List.append_eq_append_iff.mp h with ⟨as, -, hm⟩ | ⟨bs, hy, hm⟩
  · have hlen := congrArg List.length hm
    have hpos := List.length_pos_iff.mpr hne
    simp only [List.length_append] at hlen
    omega
  · have hperm : (closing ++ m).Perm (bs ++ m) := by
      rw [← hm]
      exact List.perm_append_comm
    have hbs := (List.perm_append_right_iff m).mp hperm
    have hbne : bs ≠ [] := fun e => hne (List.perm_nil.mp (e ▸ hbs))
    refine ⟨bs.getLast hbne, ?_, hbs.mem_iff.mpr (List.getLast_mem hbne)⟩
    rw [hy, List.getLast?_append, List.getLast?_eq_some_getLast hbne]
    rfl

/-- Two names that end both texts are the same name. -/
theorem name_eq {n n' p p' q q' : List Char} (hp : AfterBar p) (hp' : AfterBar p')
    (hq : AfterOpening q) (hq' : AfterOpening q') (he : p ++ n = p' ++ n')
    (hg : q ++ n = q' ++ n') : n = n' ∧ p = p' ∧ q = q' := by
  have shorter : ∀ {n n' p p' q q' as : List Char}, AfterBar p' → AfterOpening q' →
      p' = p ++ as → n = as ++ n' → q ++ n = q' ++ n' → as = [] := by
    intro n n' p p' q q' as hp' hq' hpe hn hg
    rw [hn, ← List.append_assoc] at hg
    have hqe := List.append_cancel_right hg
    rcases List.eq_nil_or_concat as with h | ⟨bs, c, rfl⟩
    · exact h
    · have h1 := hp' c (by simp [hpe])
      have h2 := hq' c (by simp [← hqe])
      rw [h1] at h2
      exact absurd h2 (by decide)
  rcases List.append_eq_append_iff.mp he with ⟨as, hpe, hn⟩ | ⟨as, hpe, hn⟩
  · have := shorter hp' hq' hpe hn hg
    subst this
    simp only [List.append_nil, List.nil_append] at hpe hn
    subst hpe; subst hn
    exact ⟨rfl, rfl, List.append_cancel_right hg⟩
  · have := shorter hp hq hpe hn hg.symm
    subst this
    simp only [List.append_nil, List.nil_append] at hpe hn
    subst hpe; subst hn
    exact ⟨rfl, rfl, List.append_cancel_right hg⟩

/-- A name that ends the generic text cannot also have something closing behind it there. -/
theorem name_not_closed {n n' p x q z closing : List Char} (hx : AfterBar x)
    (hq : AfterOpening q) (hc : Closing closing) (hne : closing ≠ []) (he : p ++ n = x ++ n')
    (hg : q ++ n = z ++ n' ++ closing) : False := by
  rcases List.append_eq_append_iff.mp he with ⟨as, hxe, hn⟩ | ⟨as, hpe, hn⟩
  · -- `n` is the longer name: what it has in front of `n'` ends with a bar
    rw [hn, ← List.append_assoc, List.append_assoc z] at hg
    obtain ⟨c, hlast, hmem⟩ := exists_getLast_mem hg hne
    have hclose := hc c hmem
    rcases List.eq_nil_or_concat as with rfl | ⟨bs, b, rfl⟩
    · have := hq c (by simpa using hlast)
      rcases this with rfl | rfl <;> simp at hclose
    · have hb := hx b (by simp [hxe])
      have : c = b := by simpa [eq_comm] using hlast
      rw [this, hb] at hclose
      simp at hclose
  · -- `n` is the shorter name: what stands in front of it opens
    rw [hn, ← List.append_assoc z, List.append_assoc _ n] at hg
    obtain ⟨c, hlast, hmem⟩ := exists_getLast_mem hg hne
    have hclose := hc c hmem
    have := hq c hlast
    rcases this with rfl | rfl <;> simp at hclose

/-- The last name of a type, and what the two texts have around it. -/
theorem exists_last_name {ty : FieldType} (hfull : ty.Full) : ∃ x m z closing,
    ty.escapedName.toList = x ++ m ∧ ty.genericName.toList = z ++ m ++ closing ∧
      AfterBar x ∧ Closing closing ∧
        (closing = [] → ∃ name fileName, ty = .named name fileName) := by
  induction ty with
  | named name fileName =>
    exact ⟨[], name.toList, [], [], rfl, by simp [genericName], by simp [AfterBar],
      by simp [Closing], fun _ => ⟨name, fileName, rfl⟩⟩
  | list element hooks ih =>
    obtain ⟨x, m, z, closing, he, hg, hx, hc, -⟩ := ih hfull
    refine ⟨'_' :: x, m, z, closing ++ ['[', ']'], ?_, ?_, ?_, ?_, by simp⟩
    · rw [toList_escapedName_list, he, List.cons_append]
    · rw [toList_genericName_list, hg]; simp
    · exact afterBar_append (l := ['_']) (by simp [AfterBar]) hx
    · intro c hmem
      rcases List.mem_append.mp hmem with h | h
      · exact hc c h
      · simp at h; rcases h with rfl | rfl <;> simp
  | generic name args fileName ih =>
    obtain ⟨hne, hargs⟩ := full_generic_iff.mp hfull
    obtain h | ⟨init, a, h⟩ := List.eq_nil_or_concat args
    · exact absurd h hne
    rw [List.concat_eq_append] at h
    subst h
    have ha : a ∈ init ++ [a] := by simp
    obtain ⟨x, m, z, closing, he, hg, hx, hc, -⟩ := ih a ha (hargs a ha)
    refine ⟨name.toList ++ (escapedArgs init).toList ++ ['_'] ++ x, m,
      name.toList ++ precedingArgs init ++ z, closing ++ ['>'], ?_, ?_, ?_, ?_, by simp⟩
    · rw [toList_escapedName_generic, toList_escapedArgs_concat, he]; simp
    · rw [toList_genericName_generic, cons_intercalate_concat, hg]; simp
    · exact afterBar_append (afterBar_concat _) hx
    · intro c hmem
      rcases List.mem_append.mp hmem with h | h
      · exact hc c h
      · simp at h; simp [h]

/-- A type without lists and arguments has not both names in common with one that has some. -/
theorem named_not_closed {name : String} {ty : FieldType} (hfull : ty.Full)
    (hty : ∀ n f, ty ≠ .named n f) {p p' q q' : List Char} (hp' : AfterBar p')
    (hq : AfterOpening q) (he : p ++ name.toList = p' ++ ty.escapedName.toList)
    (hg : q ++ name.toList = q' ++ ty.genericName.toList) : False := by
  obtain ⟨x, m, z, closing, hxe, hze, hx, hc, hnamed⟩ := exists_last_name hfull
  have hne : closing ≠ [] := fun h => by
    obtain ⟨n, f, h⟩ := hnamed h
    exact hty n f h
  have hbar : AfterBar (p' ++ x) := afterBar_append hp' hx
  have he' : p ++ name.toList = (p' ++ x) ++ m := by rw [he, hxe, List.append_assoc]
  have hg' : q ++ name.toList = (q' ++ z) ++ m ++ closing := by rw [hg, hze]; simp
  exact name_not_closed hbar hq hc hne he' hg'

theorem getLast?_precedingArgs (args : List FieldType) :
    (precedingArgs args).getLast? = some (if args = [] then '<' else ' ') := by
  by_cases h : args = []
  · simp [h, precedingArgs]
  · rw [precedingArgs_of_ne_nil h, List.getLast?_append, if_neg h]
    rfl

theorem afterOpening_precedingArgs (q : List Char) (args : List FieldType) :
    AfterOpening (q ++ precedingArgs args) := by
  intro c hc
  rw [List.getLast?_append, getLast?_precedingArgs] at hc
  by_cases h : args = [] <;> simp [h] at hc <;> simp [← hc]

/-- Whether the last argument is the first one shows in what stands before it. -/
theorem precedingArgs_nil_iff {q q' : List Char} {args args' : List FieldType}
    (h : q ++ precedingArgs args = q' ++ precedingArgs args') : args = [] ↔ args' = [] := by
  have hlast := congrArg List.getLast? h
  rw [List.getLast?_append, List.getLast?_append, getLast?_precedingArgs,
    getLast?_precedingArgs] at hlast
  by_cases hargs : args = [] <;> by_cases hargs' : args' = [] <;> simp [hargs, hargs'] at hlast ⊢

/-- What the two texts of two types, with what stands in front of them, determine. -/
def Determined (t t' : FieldType) : Prop := ∀ p p' q q' : List Char, AfterBar p → AfterBar p' →
  AfterOpening q → AfterOpening q' → p ++ t.escapedName.toList = p' ++ t'.escapedName.toList →
  q ++ t.genericName.toList = q' ++ t'.genericName.toList → t.bare = t'.bare ∧ p = p' ∧ q = q'

/-- Lists of arguments are read from the last argument on. -/
theorem args_determined {args args' : List FieldType} (ih : ∀ a ∈ args, ∀ a' ∈ args',
      Determined a a') (hne : args ≠ []) (hne' : args' ≠ []) {p p' q q' : List Char}
    (he : p ++ (escapedArgs args).toList = p' ++ (escapedArgs args').toList)
    (hg : q ++ '<' :: (", ".intercalate (genericNames args)).toList =
      q' ++ '<' :: (", ".intercalate (genericNames args')).toList) :
    args.map bare = args'.map bare ∧ p = p' ∧ q = q' := by
  induction args using List.reverseRecOn generalizing args' with
  | nil => exact absurd rfl hne
  | append_singleton init a ihinit =>
    obtain h | ⟨init', a', rfl⟩ := args'.eq_nil_or_concat'
    · exact absurd h hne'
    have hlast : (p ++ (escapedArgs init).toList ++ ['_']) ++ a.escapedName.toList =
        (p' ++ (escapedArgs init').toList ++ ['_']) ++ a'.escapedName.toList := by
      simpa [toList_escapedArgs_concat] using he
    have hglast : (q ++ precedingArgs init) ++ a.genericName.toList =
        (q' ++ precedingArgs init') ++ a'.genericName.toList := by
      rw [cons_intercalate_concat, cons_intercalate_concat] at hg
      rw [List.append_assoc, List.append_assoc, hg]
    obtain ⟨ha, hp, hq⟩ := ih a (by simp) a' (by simp) _ _ _ _ (afterBar_concat _)
      (afterBar_concat _) (afterOpening_precedingArgs q init) (afterOpening_precedingArgs q' init')
      hlast hglast
    have hp := List.append_cancel_right hp
    have hnil := precedingArgs_nil_iff hq
    by_cases hinit : init = []
    · have hinit' := hnil.mp hinit
      subst hinit; subst hinit'
      exact ⟨by simp [ha], by simpa [escapedArgs] using hp, List.append_cancel_right hq⟩
    · have hinit' : init' ≠ [] := fun h => hinit (hnil.mpr h)
      rw [precedingArgs_of_ne_nil hinit, precedingArgs_of_ne_nil hinit', ← List.append_assoc,
        ← List.append_assoc q'] at hq
      obtain ⟨hmap, hp, hq⟩ := ihinit (fun c hc c' hc' => ih c (by simp [hc]) c' (by simp [hc']))
        hinit hinit' hp (List.append_cancel_right hq)
      exact ⟨by simp [hmap, ha], hp, hq⟩

/-- A type is determined by its two names, and so is all that stands in front of them. -/
theorem determined {t t' : FieldType} (hfull : t.Full) (hfull' : t'.Full) : Determined t t' := by
  induction t generalizing t' with
  | named name fileName =>
    intro p p' q q' hp hp' hq hq' he hg
    cases t' with
    | named name' fileName' =>
      obtain ⟨hn, hpe, hqe⟩ := name_eq hp hp' hq hq' he hg
      have hn : name = name' := String.toList_inj.mp hn
      exact ⟨by rw [bare, bare, forget, forget, hn], hpe, hqe⟩
    | list element hooks => exact (named_not_closed hfull' (by simp) hp' hq he hg).elim
    | generic n args f => exact (named_not_closed hfull' (by simp) hp' hq he hg).elim
  | list element hooks ih =>
    intro p p' q q' hp hp' hq hq' he hg
    cases t' with
    | named name' fileName' =>
      exact (named_not_closed hfull (by simp) hp hq' he.symm hg.symm).elim
    | list element' hooks' =>
      have he : (p ++ ['_']) ++ element.escapedName.toList =
          (p' ++ ['_']) ++ element'.escapedName.toList := by
        simpa [toList_escapedName_list] using he
      have hg : q ++ element.genericName.toList = q' ++ element'.genericName.toList := by
        rw [toList_genericName_list, toList_genericName_list, ← List.append_assoc] at hg
        exact List.append_cancel_right (hg.trans (List.append_assoc ..).symm)
      have hfull' : element'.Full := hfull'
      obtain ⟨hel, hpe, hqe⟩ := ih hfull hfull' _ _ _ _ (afterBar_concat p) (afterBar_concat p')
        hq hq' he hg
      exact ⟨by rw [bare, bare, forget, forget, ← bare, ← bare, hel],
        List.append_cancel_right hpe, hqe⟩
    | generic n args f =>
      have hlast := congrArg List.getLast? hg
      simp [getLast?_genericName_list, getLast?_genericName_generic] at hlast
  | generic name args fileName ih =>
    intro p p' q q' hp hp' hq hq' he hg
    cases t' with
    | named name' fileName' =>
      exact (named_not_closed hfull (by simp) hp hq' he.symm hg.symm).elim
    | list element' hooks' =>
      have hlast := congrArg List.getLast? hg
      simp [getLast?_genericName_list, getLast?_genericName_generic] at hlast
    | generic name' args' fileName' =>
      obtain ⟨hne, hargs⟩ := full_generic_iff.mp hfull
      obtain ⟨hne', hargs'⟩ := full_generic_iff.mp hfull'
      have he : (p ++ name.toList) ++ (escapedArgs args).toList =
          (p' ++ name'.toList) ++ (escapedArgs args').toList := by
        simpa [toList_escapedName_generic] using he
      have hg : (q ++ name.toList) ++ '<' :: (", ".intercalate (genericNames args)).toList =
          (q' ++ name'.toList) ++ '<' :: (", ".intercalate (genericNames args')).toList := by
        rw [toList_genericName_generic, toList_genericName_generic, ← List.append_assoc,
          ← List.append_assoc q'] at hg
        rw [List.append_assoc, List.append_assoc, List.append_cancel_right hg]
      obtain ⟨hmap, hpe, hqe⟩ := args_determined
        (fun a ha a' ha' => ih a ha (hargs a ha) (hargs' a' ha')) hne hne' he hg
      obtain ⟨hn, hpe, hqe⟩ := name_eq hp hp' hq hq' hpe hqe
      have hn : name = name' := String.toList_inj.mp hn
      refine ⟨?_, hpe, hqe⟩
      rw [bare, bare, forget, forget, forgetAll_eq_map, forgetAll_eq_map, hn]
      exact congrArg (FieldType.generic name' · none) hmap

/-! ## Empty lists -/

/-- The characters that begin something in one of the two names. -/
def beginsPart (c : Char) : Bool := c = '_' || c = '<' || c = '[' || c = ','

theorem count_genericArgs {args : List FieldType} (ih : ∀ a ∈ args, a.genericName.toList.countP
      beginsPart = a.escapedName.toList.countP beginsPart + a.emptyLists) (hne : args ≠ []) :
    ('<' :: (", ".intercalate (genericNames args)).toList).countP beginsPart =
      (escapedArgs args).toList.countP beginsPart + emptyListsAll args := by
  induction args with
  | nil => exact absurd rfl hne
  | cons a rest ihrest =>
    have ha := ih a (by simp)
    cases rest with
    | nil =>
      simp [genericNames, escapedArgs, emptyListsAll, String.toList_append, beginsPart] at ha ⊢
      omega
    | cons b more =>
      have hrest := ihrest (fun c hc => ih c (by simp [hc])) (by simp)
      rw [genericNames, String.intercalate_cons_of_ne_nil (by simp [genericNames]), escapedArgs,
        emptyListsAll]
      simp only [String.toList_append, List.countP_append, List.countP_cons] at hrest ⊢
      have hcomma : ", ".toList.countP beginsPart = 1 := by decide
      have hbar : "_".toList.countP beginsPart = 1 := by decide
      omega

/-- The generic name begins as many parts as the escaped name, and one more for each empty list of
arguments. -/
theorem count_genericName (ty : FieldType) : ty.genericName.toList.countP beginsPart =
    ty.escapedName.toList.countP beginsPart + ty.emptyLists := by
  induction ty with
  | named name fileName => rfl
  | list element hooks ih =>
    have hlist : ['[', ']'].countP beginsPart = 1 := by decide
    have hbar : beginsPart '_' = true := by decide
    rw [toList_genericName_list, toList_escapedName_list, List.countP_append, hlist,
      List.countP_cons_of_pos hbar, emptyLists]
    omega
  | generic name args fileName ih =>
    have hclose : ['>'].countP beginsPart = 0 := by decide
    rw [toList_genericName_generic, toList_escapedName_generic, List.countP_append,
      List.countP_append, List.countP_append, hclose, emptyLists]
    by_cases hne : args = []
    · subst hne
      rfl
    · have hargs := count_genericArgs ih hne
      rw [if_neg (by simpa using hne)]
      omega

theorem emptyLists_eq_of_names_eq {t t' : FieldType} (he : t.escapedName = t'.escapedName)
    (hg : t.genericName = t'.genericName) : t.emptyLists = t'.emptyLists := by
  have h := count_genericName t
  have h' := count_genericName t'
  rw [he, hg] at h
  omega

/-- **Two names, one type.**  Types that agree in both names agree up to files and hooks. -/
theorem bare_eq_of_names_eq {t t' : FieldType} (hfull : t.Full)
    (he : t.escapedName = t'.escapedName) (hg : t.genericName = t'.genericName) :
    t.bare = t'.bare := by
  have hfull' : t'.Full := (emptyLists_eq_of_names_eq he hg).symm.trans hfull
  have hnil : AfterBar [] ∧ AfterOpening [] := by simp [AfterBar, AfterOpening]
  exact (determined hfull hfull' [] [] [] [] hnil.1 hnil.1 hnil.2 hnil.2 (by rw [he])
    (by rw [hg])).1

end EntityGraph.FieldType
