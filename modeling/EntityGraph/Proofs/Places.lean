import EntityGraph.Command.Basic
import EntityGraph.Command.FileTree
import EntityGraph.Proofs.Lookup

/-!
# Places of files

A path as written is a list of names, and following the names in a tree leads to a place:

    names (a ++ "/" ++ b) = names a ++ names b              (Directories.names_append_slash)
    follow base (a ++ b) = follow base a >>= (follow · b)             (FileTree.follow_append)
    place.length ≤ base.length + the number of its names              (FileTree.length_follow)
    place = base ++ its names, where none leads back            (FileTree.eq_of_follow_onward)

A place that is found in a tree is found in every tree with the same directories and more
(`FileTree.locate_of_keeps`), and a file that is written is there to be read
(`FileTree.read_of_written`).
-/

namespace EntityGraph

/-! ## Names -/

namespace Directories

/-- Whether a name counts for something. -/
def named (name : String) : Bool := name ≠ "" && name ≠ "."

theorem components_ne_nil (cs : List Char) : FileName.components cs ≠ [] := by
  cases cs with
  | nil => simp [FileName.components]
  | cons c cs =>
    rw [FileName.components]
    split <;> simp

theorem components_append_slash (a b : List Char) :
    FileName.components (a ++ '/' :: b) = FileName.components a ++ FileName.components b := by
  induction a with
  | nil => simp [FileName.components]
  | cons c a ih =>
    obtain ⟨part, parts, hparts⟩ := List.exists_cons_of_ne_nil (components_ne_nil a)
    simp only [List.cons_append, FileName.components, ih, hparts]
    split <;> simp

theorem components_eq_singleton {cs : List Char} (h : '/' ∉ cs) :
    FileName.components cs = [cs] := by
  induction cs with
  | nil => rfl
  | cons c cs ih =>
    obtain ⟨hc, hcs⟩ : '/' ≠ c ∧ '/' ∉ cs := by simpa using h
    rw [FileName.components, ih hcs]
    simp [Ne.symm hc]

theorem slash_notMem_components {cs part : List Char} (h : part ∈ FileName.components cs) :
    '/' ∉ part := by
  induction cs generalizing part with
  | nil => simp_all [FileName.components]
  | cons c cs ih =>
    obtain ⟨first, parts, hparts⟩ := List.exists_cons_of_ne_nil (components_ne_nil cs)
    rw [hparts] at ih
    simp only [FileName.components, hparts] at h
    split at h
    case isTrue =>
      rcases List.mem_cons.mp h with rfl | h
      · simp
      · exact ih h
    case isFalse hc =>
      rcases List.mem_cons.mp h with rfl | h
      · have hfirst : '/' ∉ first := ih List.mem_cons_self
        simpa [Ne.symm hc] using hfirst
      · exact ih (List.mem_cons_of_mem first h)

theorem names_append_slash (a b : String) : names (a ++ "/" ++ b) = names a ++ names b := by
  have hchars : (a ++ "/" ++ b).toList = a.toList ++ '/' :: b.toList := by simp
  rw [names, hchars, components_append_slash, List.map_append]
  rfl

theorem names_eq_singleton {name : String} (h : '/' ∉ name.toList) : names name = [name] := by
  rw [names, components_eq_singleton h]
  simp

theorem slash_notMem_of_mem_names {path name : String} (h : name ∈ names path) :
    '/' ∉ name.toList := by
  obtain ⟨part, hpart, rfl⟩ := List.mem_map.mp h
  simpa using slash_notMem_components hpart

/-- The names of a path that is written with given names are these, behind nothing or a name that
does not count. -/
theorem length_names_written (isRooted : Bool) {given : List String}
    (h : ∀ name ∈ given, '/' ∉ name.toList) :
    ((names (written isRooted given)).filter named).length ≤ given.length := by
  have hjoined : ((names ("/".intercalate given)).filter named).length ≤ given.length := by
    induction given with
    | nil => decide
    | cons name given ih =>
      have hname : names name = [name] := names_eq_singleton (h name List.mem_cons_self)
      have hrest := ih fun n hn => h n (List.mem_cons_of_mem name hn)
      by_cases hnil : given = []
      · subst hnil
        rw [String.intercalate_singleton, hname]
        exact List.length_filter_le named [name]
      · rw [String.intercalate_cons_of_ne_nil hnil, names_append_slash, hname, List.filter_append,
          List.length_append]
        have hone := List.length_filter_le named [name]
        simp only [List.length_cons, List.length_nil] at hone ⊢
        omega
  by_cases hr : isRooted = true
  · have hslash : written isRooted given = "" ++ "/" ++ "/".intercalate given := by
      simp [written, hr]
    rw [hslash, names_append_slash, List.filter_append]
    simpa [names, FileName.components, named] using hjoined
  · have hplain : written isRooted given = "/".intercalate given := by simp [written, hr]
    rwa [hplain]

theorem rooted_written (given : List String) : rooted (written true given) = true := by
  simp [rooted, written]

/-- A directory above others is written with some of their names, in their order. -/
theorem exists_written_of_mem_aboveNames {isRooted : Bool} {reversed : List String} {path : String}
    (h : path ∈ aboveNames isRooted reversed) :
    ∃ given, path = written isRooted given ∧ given.length ≤ reversed.length ∧
      ∀ name ∈ given, name ∈ reversed := by
  induction reversed with
  | nil => simp [aboveNames] at h
  | cons last rest ih =>
    by_cases hnil : rest = []
    · simp [hnil, aboveNames] at h
    · rw [aboveNames.eq_3 _ _ _ hnil] at h
      rcases List.mem_cons.mp h with rfl | h
      · refine ⟨rest.reverse, rfl, by simp, fun name hname => ?_⟩
        exact List.mem_cons_of_mem last (List.mem_reverse.mp hname)
      · obtain ⟨given, hpath, hlength, hmem⟩ := ih h
        refine ⟨given, hpath, ?_, fun name hname => List.mem_cons_of_mem last (hmem name hname)⟩
        rw [List.length_cons]
        omega

end Directories

open Directories

/-- The names of a file in a directory are those of the directory, however it ends, and its own. -/
theorem exists_names_joinPath (directory : String) : ∃ base : List String,
    (names directory).filter named = base.filter named ∧
    (".." ∈ base → ".." ∈ names directory) ∧
    ∀ file, '/' ∉ file.toList → names (joinPath directory file) = base ++ [file] := by
  by_cases hends : directory.endsWith "/" = true
  · obtain ⟨front, hfront⟩ : ∃ front, directory = front ++ "/" ++ "" := by
      rw [String.endsWith_eq_endsWith_toSlice, String.Slice.endsWith_string_iff] at hends
      obtain ⟨cs, hcs⟩ := hends
      exact ⟨String.ofList cs, by simpa [← String.toList_inj] using hcs.symm⟩
    have hnames : names directory = names front ++ names "" := by rw [hfront, names_append_slash]
    refine ⟨names front, ?_, fun h => ?_, fun file hfile => ?_⟩
    · rw [hnames, List.filter_append]
      simp [names, FileName.components, named]
    · rw [hnames]
      exact List.mem_append_left _ h
    · rw [joinPath, if_pos hends, hfront, String.append_empty, names_append_slash,
        names_eq_singleton hfile]
  · refine ⟨names directory, rfl, id, fun file hfile => ?_⟩
    rw [joinPath, if_neg hends, names_append_slash, names_eq_singleton hfile]

theorem rooted_joinPath {directory : String} (h : directory ≠ "") (file : String) :
    rooted (joinPath directory file) = rooted directory := by
  have hchars : directory.toList ≠ [] := by simpa using h
  obtain ⟨c, cs, hc⟩ := List.exists_cons_of_ne_nil hchars
  rw [joinPath]
  split <;> simp [rooted, hc]

/-- A name that only stands for a file. -/
def IsFileName (file : String) : Prop := '/' ∉ file.toList ∧ named file = true ∧ file ≠ ".."

instance (file : String) : Decidable (IsFileName file) := inferInstanceAs (Decidable (_ ∧ _ ∧ _))

theorem isFileName_input : IsFileName "input.json" := by decide

theorem isFileName_output : IsFileName "output.json" := by decide

/-! ## Following names -/

namespace FileTree

variable {t t' : FileTree} {here base place : List String} {path : String}

theorem follow_append (t : FileTree) (base front back : List String) :
    t.follow base (front ++ back) = (t.follow base front >>= fun p => t.follow p back) := by
  induction front generalizing base with
  | nil => rfl
  | cons name front ih =>
    rw [List.cons_append, follow, follow]
    split
    · rfl
    · rfl
    · split
      · exact ih base
      · split
        · exact ih base.dropLast
        · split
          · rfl
          · exact ih (base ++ [name])

/-- A step to the first of some names, if there is one. -/
theorem follow_cons_ok {name : String} {rest : List String}
    (h : t.follow base (name :: rest) = .ok place) :
    t base = some .directory ∧
      ((named name = false ∧ t.follow base rest = .ok place) ∨
        (name = ".." ∧ t.follow base.dropLast rest = .ok place) ∨
        (named name = true ∧ name ≠ ".." ∧ t.follow (base ++ [name]) rest = .ok place)) := by
  rw [follow] at h
  split at h
  · cases h
  · cases h
  · rename_i hbase
    refine ⟨hbase, ?_⟩
    by_cases hskip : (decide (name = "") || decide (name = ".")) = true
    · rw [if_pos hskip] at h
      refine Or.inl ⟨?_, h⟩
      rcases (by simpa using hskip : name = "" ∨ name = ".") with rfl | rfl <;> decide
    · rw [if_neg hskip] at h
      by_cases hback : name = ".."
      · rw [if_pos hback] at h
        exact Or.inr (Or.inl ⟨hback, h⟩)
      · rw [if_neg hback] at h
        by_cases hlong : 255 < name.utf8ByteSize
        · rw [if_pos hlong] at h
          cases h
        · rw [if_neg hlong] at h
          exact Or.inr (Or.inr ⟨by simpa [named] using hskip, hback, h⟩)

/-- No name leads more than one directory onward. -/
theorem length_follow {names : List String} (h : t.follow base names = .ok place) :
    place.length ≤ base.length + (names.filter named).length := by
  induction names generalizing base with
  | nil =>
    obtain rfl : base = place := by simpa [follow] using h
    simp
  | cons name rest ih =>
    obtain ⟨-, ⟨hname, hnext⟩ | ⟨rfl, hnext⟩ | ⟨hname, -, hnext⟩⟩ := follow_cons_ok h
    · simpa [hname] using ih hnext
    · have hlength := ih hnext
      have hcounts : named ".." = true := by decide
      simp only [List.length_dropLast] at hlength
      simp only [List.filter_cons, hcounts, if_true, List.length_cons]
      omega
    · have hlength := ih hnext
      simp only [List.length_append, List.length_cons, List.length_nil] at hlength
      simp only [List.filter_cons, hname, if_true, List.length_cons]
      omega

/-- Where no name leads back, a place is found by its names alone. -/
theorem eq_of_follow_onward {names : List String} (h : t.follow base names = .ok place)
    (honward : ".." ∉ names) : place = base ++ names.filter named := by
  induction names generalizing base with
  | nil => simpa [follow, eq_comm] using h
  | cons name rest ih =>
    obtain ⟨hfirst, hrest⟩ : ".." ≠ name ∧ ".." ∉ rest := by simpa using honward
    obtain ⟨-, ⟨hname, hnext⟩ | ⟨rfl, hnext⟩ | ⟨hname, -, hnext⟩⟩ := follow_cons_ok h
    · simpa [hname] using ih hnext hrest
    · exact absurd rfl hfirst
    · simpa [hname] using ih hnext hrest

theorem names_ok_iff {given : List String} : names path = .ok given ↔
    path ≠ "" ∧ path.utf8ByteSize < 4096 ∧ given = Directories.names path := by
  rw [names]
  by_cases hempty : path = ""
  · simp [hempty]
  · rw [if_neg (by simpa using hempty)]
    by_cases hlong : 4096 ≤ path.utf8ByteSize
    · rw [if_pos hlong]
      constructor
      · intro h
        cases h
      · rintro ⟨-, hshort, -⟩
        omega
    · rw [if_neg hlong]
      constructor
      · intro h
        cases h
        exact ⟨hempty, Nat.lt_of_not_le hlong, rfl⟩
      · rintro ⟨-, -, rfl⟩
        rfl

theorem locate_ok_iff : t.locate here path = .ok place ↔
    path ≠ "" ∧ path.utf8ByteSize < 4096 ∧
      t.follow (start here path) (Directories.names path) = .ok place := by
  simp [locate, Except.bind_eq_ok_iff, names_ok_iff, and_assoc]

/-! ## Trees with the same directories and more -/

/-- The directories of a tree are directories of another. -/
def Keeps (t t' : FileTree) : Prop := ∀ p, t p = some .directory → t' p = some .directory

theorem follow_of_keeps (hkeeps : Keeps t t') {names : List String}
    (h : t.follow base names = .ok place) : t'.follow base names = .ok place := by
  induction names generalizing base with
  | nil => simpa [follow] using h
  | cons name rest ih =>
    rw [follow] at h ⊢
    split at h
    · cases h
    · cases h
    · rename_i hbase
      rw [hkeeps base hbase]
      dsimp only
      split at h <;> rename_i hskip
      · rw [if_pos hskip]
        exact ih h
      · rw [if_neg hskip]
        split at h <;> rename_i hback
        · rw [if_pos hback]
          exact ih h
        · rw [if_neg hback]
          split at h <;> rename_i hlong
          · cases h
          · rw [if_neg hlong]
            exact ih h

theorem locate_of_keeps (hkeeps : Keeps t t') (h : t.locate here path = .ok place) :
    t'.locate here path = .ok place := by
  rw [locate_ok_iff] at h ⊢
  exact ⟨h.1, h.2.1, follow_of_keeps hkeeps h.2.2⟩

/-! ## Files -/

@[simp]
theorem set_self (t : FileTree) (p : List String) (e : Entry) : t.set p e p = some e := if_pos rfl

theorem set_of_ne (t : FileTree) {p q : List String} (e : Entry) (h : q ≠ p) : t.set p e q = t q :=
  if_neg h

theorem keeps_set_file (text : String) (h : t place ≠ some .directory) :
    Keeps t (t.set place (.file text)) := fun p hp => by
  rwa [set_of_ne]
  rintro rfl
  exact h hp

theorem write_ok_iff {text : String} : t.write here path text = .ok t' ↔
    ∃ p, t.locate here path = .ok p ∧ t p ≠ some .directory ∧ t' = t.set p (.file text) := by
  rw [write]
  split
  case h_1 e hlocate => simp [hlocate]
  case h_2 p hlocate =>
    by_cases hp : t p = some .directory
    · simp [hlocate, hp]
    · simp [hlocate, hp, eq_comm]

theorem keeps_of_write {text : String} (h : t.write here path text = .ok t') : Keeps t t' := by
  obtain ⟨p, -, hp, rfl⟩ := write_ok_iff.mp h
  exact keeps_set_file text hp

theorem read_of_locate {text : String} (h : t.locate here path = .ok place)
    (hfile : t place = some (.file text)) : t.read here path = .ok text := by
  rw [read, h]
  dsimp only
  rw [hfile]

theorem read_of_written {text : String} (h : t.write here path text = .ok t') :
    t'.read here path = .ok text := by
  obtain ⟨p, hlocate, hp, rfl⟩ := write_ok_iff.mp h
  exact read_of_locate (locate_of_keeps (keeps_set_file text hp) hlocate) (set_self t p _)

section joined

variable {directory file : String} (hfile : IsFileName file)
  (h : t.locate here (joinPath directory file) = .ok place)

include hfile h

/-- A file has its own name at the end of its place. -/
theorem exists_place_joinPath : ∃ p, place = p ++ [file] := by
  obtain ⟨base, -, -, hnames⟩ := exists_names_joinPath directory
  obtain ⟨-, -, h⟩ := locate_ok_iff.mp h
  rw [hnames file hfile.1, follow_append] at h
  rcases hbase : t.follow (start here (joinPath directory file)) base with e | p
  · simp [hbase, bind, Except.bind] at h
  · simp only [hbase, bind, Except.bind] at h
    have hcounts : named file = true := hfile.2.1
    have hplace := eq_of_follow_onward h (by simpa using hfile.2.2.symm)
    exact ⟨p, by simpa [hcounts] using hplace⟩

/-- In a directory whose names do not lead back, a file is one step further than all names of the
directory. -/
theorem length_place_joinPath (hne : directory ≠ "")
    (honward : ".." ∉ Directories.names directory) : place.length =
      (start here directory).length + ((Directories.names directory).filter named).length + 1 := by
  obtain ⟨base, hcount, hback, hnames⟩ := exists_names_joinPath directory
  obtain ⟨-, -, h⟩ := locate_ok_iff.mp h
  rw [hnames file hfile.1] at h
  have hnoback : ".." ∉ base ++ [file] := by
    simpa [hfile.2.2.symm] using mt hback honward
  rw [eq_of_follow_onward h hnoback, hcount, start, start, rooted_joinPath hne]
  simp [hfile.2.1, Nat.add_assoc]

end joined

section elsewhere

variable {directory file file' text : String} (hfile : IsFileName file) (hfile' : IsFileName file')
  (hne : file ≠ file')

include hfile hfile' hne

/-- What is at another file of a directory does not change when a file is written. -/
theorem write_elsewhere {t'' : FileTree}
    (hwrite : t.write here (joinPath directory file) text = .ok t')
    (h : t''.locate here (joinPath directory file') = .ok place) : t' place = t place := by
  obtain ⟨p, hlocate, -, rfl⟩ := write_ok_iff.mp hwrite
  obtain ⟨q, rfl⟩ := exists_place_joinPath hfile hlocate
  obtain ⟨q', rfl⟩ := exists_place_joinPath hfile' h
  refine set_of_ne t _ fun hsame => hne ?_
  have hlast : [file'] = [file] := List.append_inj_right' hsame rfl
  exact (List.head_eq_of_cons_eq hlast).symm

/-- A file that has been written can be read after another file of its directory is written. -/
theorem read_of_written_elsewhere {t₁ t₂ : FileTree} {text' : String}
    (hwrite' : t.write here (joinPath directory file') text' = .ok t₁)
    (hwrite : t₁.write here (joinPath directory file) text = .ok t₂) :
    t₂.read here (joinPath directory file') = .ok text' := by
  obtain ⟨p, hlocate, -, ht₁⟩ := write_ok_iff.mp hwrite'
  have hlocate₂ := locate_of_keeps (keeps_of_write hwrite)
    (locate_of_keeps (keeps_of_write hwrite') hlocate)
  refine read_of_locate hlocate₂ ?_
  rw [write_elsewhere hfile hfile' hne hwrite hlocate₂, ht₁, set_self]

end elsewhere

end FileTree

end EntityGraph
