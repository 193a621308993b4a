import EntityGraph.Proofs.Settled

/-!
# Broken entries of inherit lists

An inherit list is not checked as such: its entries are looked up one after another in the search
for a visible field that the object does not declare itself, and the search ends at the first entry
that declares the field.  Every entry that it comes to has to be an object, or else there is no
result:

    o.ancestors = nearer ++ a :: farther → nothing in the origin and in nearer declares the field →
      a is an object                                      (Graph.normalize_ancestors_searched)

An entry that no search comes to may be missing or of another kind, and nobody notices
(`Graph.not_ancestors_dangling`).
-/

namespace EntityGraph

open Normalize

/-! ## Lemmas -/

namespace Resolution

variable {lookup : String → Option Node} {o : Object} {key name : String} {v : VisibleField}

/-- What comes before a name where each name is kept once comes before it in the list. -/
theorem exists_eraseDups_split (pre : List String) (name : String) (post : List String) :
    ∃ pre' post', (pre ++ name :: post).eraseDups = pre' ++ name :: post' ∧
      ∀ a ∈ pre', a ∈ pre := by
  rw [List.eraseDups_append]
  by_cases hname : name ∈ pre
  · obtain ⟨pre', rest, hsplit⟩ := List.append_of_mem (List.mem_eraseDups.mpr hname)
    refine ⟨pre', _, by rw [hsplit, List.append_assoc, List.cons_append], fun a ha => ?_⟩
    apply List.mem_eraseDups.mp
    rw [hsplit]
    exact List.mem_append_left _ ha
  · have hkept : (name :: post).removeAll pre = name :: post.removeAll pre := by
      rw [List.cons_removeAll, if_pos (by simpa using hname)]
    rw [hkept, List.eraseDups_cons]
    exact ⟨pre.eraseDups, _, rfl, fun a ha => List.mem_eraseDups.mp ha⟩

/-- A field that is resolved has been searched for on objects only. -/
theorem object_of_resolve {x : Except Diagnostic ResolvedField}
    (h : resolve lookup o key v = .ok x) (hown : o.fields.find? key = none)
    {pre post : List String} (hnames : v.origin.toList ++ o.ancestors = pre ++ name :: post)
    (hpre : ∀ a ∈ pre, ∀ f, ¬ Declares lookup a key f) :
    ∃ owner, lookup name = some (.object owner) := by
  have hobjects : ObjectsUpTo lookup key (searchOrder o v) := resolve_isOk_iff.mp ⟨x, h⟩ hown
  obtain ⟨pre', post', hsplit, hpre'⟩ := exists_eraseDups_split pre name post
  refine hobjects pre' name post' ?_ fun a ha => hpre a (hpre' a ha)
  rw [searchOrder, hnames, hsplit]

end Resolution

namespace Graph

/-- **Broken ancestors that are searched are reported.**  When a normalization succeeds, each entry
of an inherit list that the search for a visible field comes to is an object: the object does not
declare the field, and neither do the recorded origin and the entries before. -/
theorem normalize_ancestors_searched {g : Graph} {n : Normalized} (hn : g.normalize = .ok n)
    {name : String} {o : Object} (hshows : n.Shows g name o) {key : String} {v : VisibleField}
    (hv : (key, v) ∈ o.visibleFields.entries) (hown : o.fields.find? key = none)
    {nearer farther : List String} {a : String} (ha : o.ancestors = nearer ++ a :: farther)
    (hpassed : ∀ b ∈ v.origin.toList ++ nearer, ∀ field,
      ¬ Resolution.Declares (n.lookup g) b key field) :
    ∃ owner, n.lookup g a = some (.object owner) := by
  obtain ⟨h, st, hrun, hcomplete, rfl⟩ := normalize_ok hn
  have hc := hrun.consistent
  obtain ⟨visit, hvisit, -, hnode, ho⟩ := (shows_result_iff hc hcomplete).mp hshows
  have hreport := hc.reported visit hvisit
  rw [hnode] at hreport
  obtain ⟨resolved, reports, hres, -⟩ := (report_object_ok_iff ho).mp hreport
  obtain ⟨x, hx⟩ := Resolution.resolveAll_isOk_iff.mp ⟨_, hres⟩ (key, v) hv
  rw [lookup_result hc] at hpassed ⊢
  have hnames : v.origin.toList ++ o.ancestors = (v.origin.toList ++ nearer) ++ a :: farther := by
    rw [ha, List.append_assoc]
  exact Resolution.object_of_resolve hx hown hnames hpassed

/-- The search for the label of an album passes the medium, and so the record after it has to be an
object. -/
theorem normalize_ancestors_searched_albums : ∃ n o, albums.normalize = .ok n ∧
    n.Shows albums "Album" o ∧ ("label", ⟨some "Record", 2, false⟩) ∈ o.visibleFields.entries ∧
    o.fields.find? "label" = none ∧ o.ancestors = ["Medium"] ++ "Record" :: ["Medium"] ∧
    (∀ b ∈ ["Record", "Medium"], ∀ field,
      ¬ Resolution.Declares (n.lookup albums) b "label" field) ∧
    ∃ owner, n.lookup albums "Record" = some (.object owner) := by
  obtain ⟨n, hn⟩ : ∃ n, albums.normalize = .ok n := ⟨_, rfl⟩
  obtain ⟨o, ho, hv, hown, ha⟩ : ∃ o, (albums.find? "Album" = some (.object o) ∧
      o.isTemplate = false) ∧ ("label", ⟨some "Record", 2, false⟩) ∈ o.visibleFields.entries ∧
      o.fields.find? "label" = none ∧ o.ancestors = ["Medium"] ++ "Record" :: ["Medium"] :=
    ⟨_, ⟨rfl, rfl⟩, Dict.find?_eq_some_iff.mp rfl, rfl, rfl⟩
  have hpassed : ∀ b ∈ ["Record", "Medium"], ∀ field,
      ¬ Resolution.Declares (n.lookup albums) b "label" field := by
    refine List.forall_mem_cons.mpr ⟨?record, List.forall_mem_singleton.mpr ?medium⟩
    case record => exact Resolution.not_declares_of_find?_eq_none rfl rfl
    case medium => exact Resolution.not_declares_of_find?_eq_none rfl rfl
  exact ⟨n, o, hn, Or.inl ho, hv, hown, ha, hpassed,
    normalize_ancestors_searched hn (Or.inl ho) hv hown ha hpassed⟩

/-- A user inherits from something that does not exist, behind an object that provides all that is
inherited. -/
def dangling : Graph :=
  let text : FieldType := .named "Text" none
  let nick : Field := .both "User" "nick" 0 text
  let user := ((Object.named "User").withField nick false).withInheritedField "Base" "id" 0 false
  ⟨⟨[("Text", .scalar ⟨"Text", none⟩),
    ("Base", .object ((Object.named "Base").withField (.both "Base" "id" 0 text) false)),
    ("User", .object { user with inherit := some ["Base", "Missing"] })], by decide⟩⟩

/-- The search for a field does not come to all entries of an inherit list. -/
theorem not_ancestors_dangling : ∃ n, dangling.normalize = .ok n ∧
    ¬ ∀ name o, n.Shows dangling name o → ∀ a ∈ o.ancestors,
      ∃ owner, n.lookup dangling a = some (.object owner) := by
  refine ⟨_, rfl, fun hall => ?_⟩
  obtain ⟨owner, howner⟩ := hall "User" _ (Or.inl ⟨rfl, rfl⟩) "Missing" (by decide)
  cases howner

end Graph

end EntityGraph
