import EntityGraph.Proofs.Places

/-!
# What a normalization into a directory leaves behind

The two schemas are written one after the other, with nothing that undoes the first when the second
fails.  So a run ends in one of three ways:

    code 0                                       both schemas are there      (Command.Written)
    code 1, the second could not be written      the first is there          (Command.HalfWritten)
    code 1, any other report                     no file is new or changed   (Command.Untouched)

What is true of each part of the command (`ends_make`, `ends_write` and the others) is put together
in `ends_runNormalize`, whatever the reader of YAML.  Directories that a failed run has made stay;
they are no further from the root than the directory that was asked for (`makes_make`), and so none
is in the place of one of its files, unless the directory is written with names that lead back.
-/

namespace EntityGraph

open Directories

theorem Except.eq_ok_of_toOption {ε α : Type} {x : Except ε α} {a : α}
    (h : x.toOption = some a) : x = .ok a := by
  cases x with
  | error e => cases h
  | ok b => rw [Option.some.inj h]

/-! ## Trees that grow -/

namespace FileTree

variable {new : List String → Prop} {t t' t'' : FileTree} {here place : List String} {path : String}

/-- Nothing but directories has come to a tree. -/
def Grown (t t' : FileTree) : Prop := ∀ p, t' p = t p ∨ t p = none ∧ t' p = some .directory

/-- What a path leads to after a change has been there before. -/
def SameAt (t t' : FileTree) (here : List String) (path : String) : Prop :=
  ∀ p, t'.locate here path = .ok p → t' p = t p

/-- Nothing but directories in certain places has come to a tree. -/
def GrownIn (new : List String → Prop) (t t' : FileTree) : Prop :=
  ∀ p, t' p = t p ∨ t p = none ∧ t' p = some .directory ∧ new p

theorem GrownIn.refl : GrownIn new t t := fun _ => Or.inl rfl

theorem GrownIn.trans (h : GrownIn new t t') (h' : GrownIn new t' t'') : GrownIn new t t'' := by
  intro p
  rcases h p with hp | ⟨hnone, hp, hnew⟩
  · simpa only [hp] using h' p
  · rcases h' p with hp' | ⟨hnone', -, -⟩
    · exact Or.inr ⟨hnone, hp'.trans hp, hnew⟩
    · rw [hp] at hnone'
      cases hnone'

theorem GrownIn.grown (h : GrownIn new t t') : Grown t t' := fun p =>
  (h p).imp_right fun ⟨hnone, hp, _⟩ => ⟨hnone, hp⟩

theorem grownIn_set_directory (hnone : t place = none) (hnew : new place) :
    GrownIn new t (t.set place .directory) := fun p => by
  by_cases hp : p = place
  · subst hp
    exact Or.inr ⟨hnone, set_self t p _, hnew⟩
  · exact Or.inl (set_of_ne t _ hp)

/-- How far from the root a path as written can lead. -/
def reachOf (here : List String) (path : String) : Nat :=
  (start here path).length + ((Directories.names path).filter named).length

theorem length_start_written (here : List String) (directory : String) (given : List String) :
    (start here (written (rooted directory) given)).length ≤ (start here directory).length := by
  rw [start, start]
  by_cases hrooted : rooted directory = true
  · rw [hrooted, if_pos (rooted_written given)]
    exact Nat.zero_le _
  · rw [if_neg hrooted]
    split
    · exact Nat.zero_le _
    · exact Nat.le_refl _

/-- A directory that is made was not there, and it is no further from the root than its names
say. -/
theorem makeDirectory_ok (h : t.makeDirectory here path = .ok t') :
    path ≠ "" ∧ ∃ p, t p = none ∧ p.length ≤ reachOf here path ∧ t' = t.set p .directory := by
  simp only [makeDirectory, Except.bind_eq_ok_iff, names_ok_iff] at h
  obtain ⟨_, ⟨hne, -, rfl⟩, h⟩ := h
  generalize hkept : ((Directories.names path).reverse.dropWhile (·.isEmpty)).reverse = kept at h
  have hsublist : List.Sublist kept (Directories.names path) := by
    rw [← hkept, ← List.reverse_sublist, List.reverse_reverse]
    exact List.dropWhile_sublist _
  split at h
  · cases h
  · rename_i last hlast
    simp only [Except.bind_eq_ok_iff] at h
    obtain ⟨parent, hparent, h⟩ := h
    split at h
    · cases h
    · obtain ⟨p, hp, h⟩ := Except.bind_eq_ok_iff.mp h
      split at h
      · cases h
      · rename_i hnone
        obtain rfl : t.set p .directory = t' := by simpa using h
        refine ⟨hne, p, hnone, ?_, rfl⟩
        obtain ⟨front, rfl⟩ := List.getLast?_eq_some_iff.mp hlast
        rw [List.dropLast_concat] at hparent
        have hfollow : t.follow (start here path) (front ++ ["."] ++ [last]) = .ok p := by
          rw [follow_append, hparent]
          exact hp
        have hcount : (front ++ ["."] ++ [last]).filter named = (front ++ [last]).filter named := by
          simp [named]
        have hlength := length_follow hfollow
        have hfewer := (hsublist.filter named).length_le
        rw [hcount] at hlength
        rw [reachOf]
        omega

end FileTree

/-! ## Directories that are made -/

namespace Surroundings

variable {α β : Type} {new : List String → List String → Prop}

/-- A step that does nothing but make directories in certain places. -/
def Makes (new : List String → List String → Prop) (x : StateM Surroundings α) : Prop :=
  ∀ s, ∃ a t, x.run s = (a, { s with files := t }) ∧ s.files.GrownIn (new s.directory) t

theorem makes_pure (a : α) : Makes new (pure a) := fun s => ⟨a, s.files, rfl, .refl⟩

theorem makes_bind {x : StateM Surroundings α} {f : α → StateM Surroundings β} (hx : Makes new x)
    (hf : ∀ a, Makes new (f a)) : Makes new (x >>= f) := fun s => by
  obtain ⟨a, t, hrun, hgrown⟩ := hx s
  obtain ⟨b, t', hrun', hgrown'⟩ := hf a { s with files := t }
  refine ⟨b, t', ?_, hgrown.trans hgrown'⟩
  rw [StateT.run_bind, hrun]
  exact hrun'

theorem makes_read (path : String) : Makes new (Host.read path) := fun s =>
  ⟨_, s.files, rfl, .refl⟩

/-- A path that can be made as a directory only in certain places. -/
def MadeIn (new : List String → List String → Prop) (path : String) : Prop :=
  ∀ here t t', FileTree.makeDirectory t here path = .ok t' → t.GrownIn (new here) t'

theorem makes_makeDirectory {path : String} (h : MadeIn new path) :
    Makes new (Host.makeDirectory path) := fun s => by
  rcases hmake : s.files.makeDirectory s.directory path with e | t
  · exact ⟨.error e, s.files, by simp [Host.makeDirectory, StateT.run, change, hmake], .refl⟩
  · exact ⟨.ok (), t, by simp [Host.makeDirectory, StateT.run, change, hmake], h _ _ _ hmake⟩

theorem makes_settle (path : String) (result : Except OsError Unit) :
    Makes new (settle path result) := by
  cases result with
  | ok => exact makes_pure _
  | error e =>
    refine makes_bind (makes_bind (makes_read path) fun r => ?_) fun there => ?_
    · split <;> exact makes_pure _
    · split <;> exact makes_pure _

theorem makes_makeUnder {path : String} {above : List String}
    (h : ∀ p ∈ path :: above, MadeIn new p) : Makes new (makeUnder path above) := by
  induction above generalizing path with
  | nil => exact makes_bind (makes_makeDirectory (h path List.mem_cons_self)) (makes_settle path)
  | cons parent rest ih =>
    have hpath := makes_makeDirectory (h path List.mem_cons_self)
    refine makes_bind hpath fun result => ?_
    split
    · refine makes_bind (ih fun p hp => h p (List.mem_cons_of_mem path hp)) fun result => ?_
      split
      · exact makes_bind hpath (makes_settle path)
      · exact makes_pure _
    · exact makes_settle path result

/-- No further from the root than a directory as written. -/
def Reached (directory : String) (here p : List String) : Prop :=
  directory ≠ "" ∧ p.length ≤ FileTree.reachOf here directory

theorem makes_make (directory : String) : Makes (Reached directory) (make directory) := by
  refine makes_makeUnder fun path hpath here t t' hmake => ?_
  obtain ⟨hne, p, hnone, hlength, rfl⟩ := FileTree.makeDirectory_ok hmake
  refine FileTree.grownIn_set_directory hnone ?_
  rcases List.mem_cons.mp hpath with rfl | habove
  · exact ⟨hne, hlength⟩
  · have hsome : directory ≠ "" := by
      rintro rfl
      cases habove
    obtain ⟨given, rfl, hgiven, hmem⟩ := exists_written_of_mem_aboveNames habove
    have hplain : ∀ name ∈ given, '/' ∉ name.toList := fun name hname =>
      slash_notMem_of_mem_names (List.mem_filter.mp (List.mem_reverse.mp (hmem name hname))).1
    have hstart := FileTree.length_start_written here directory given
    have hcount := length_names_written (rooted directory) hplain
    rw [List.length_reverse] at hgiven
    rw [FileTree.reachOf] at hlength
    exact ⟨hsome, Nat.le_trans hlength (Nat.add_le_add hstart (Nat.le_trans hcount hgiven))⟩

end Surroundings

/-! ## Parts of a command -/

namespace Command

variable {α β : Type} {s s' : Surroundings}

/-- How a part of a command ends in given surroundings. -/
def Ends (x : Step (StateM Surroundings) α) (s : Surroundings) (r : Except Failure α)
    (s' : Surroundings) : Prop := StateT.run x.run s = (r, s')

theorem ends_bind {x : Step (StateM Surroundings) α} {f : α → Step (StateM Surroundings) β}
    {r : Except Failure β} (h : Ends (x >>= f) s r s') :
    (∃ e, Ends x s (.error e) s' ∧ r = .error e) ∨
      ∃ a s₁, Ends x s (.ok a) s₁ ∧ Ends (f a) s₁ r s' := by
  rw [Ends, ExceptT.run_bind, StateT.run_bind] at h
  rcases hx : StateT.run x.run s with ⟨e | a, s₁⟩
  · rw [hx] at h
    cases h
    exact Or.inl ⟨e, hx, rfl⟩
  · rw [hx] at h
    exact Or.inr ⟨a, s₁, hx, h⟩

theorem ends_host {what path : String} {action : StateM Surroundings (Except OsError α)}
    {r : Except Failure α} (h : Ends (host what path action) s r s') :
    (∃ e, action s = (.error e, s') ∧ r = .error ⟨s!"failed to {what} {path}", [e.message]⟩) ∨
      ∃ a, action s = (.ok a, s') ∧ r = .ok a := by
  rcases ends_bind h with ⟨e, hlift, -⟩ | ⟨result, s₁, hlift, hrest⟩
  · cases hlift
  · cases hlift
    rcases hresult : (action s).1 with e | a
    · rw [hresult] at hrest
      cases hrest
      exact Or.inl ⟨e, Prod.ext hresult rfl, rfl⟩
    · rw [hresult] at hrest
      cases hrest
      exact Or.inr ⟨a, Prod.ext hresult rfl, rfl⟩

/-- What is reported of a file that could not be written. -/
def unwritten (path : String) : String := s!"failed to write {path}"

theorem unwritten_eq (path : String) : unwritten path = "failed to write " ++ path := rfl

/-- A report of something else than that a file could not be written. -/
def Elsewhere (f : Failure) : Prop := ∀ path, f.message ≠ unwritten path

/-- A document is read without any effect. -/
theorem ends_readDocument {load : Format → String → Except LoadError α} {path : String}
    {r : Except Failure α} (h : Ends (readDocument load path) s r s') :
    s' = s ∧ ((∃ f, r = .error f ∧ Elsewhere f) ∨ ∃ text a,
      s.files.read s.directory path = .ok text ∧ load (.ofPath path) text = .ok a ∧ r = .ok a) := by
  rcases ends_bind h with ⟨e, hread, rfl⟩ | ⟨text, s₁, hread, hload⟩
  · obtain ⟨_, hread, hr⟩ | ⟨_, _, hr⟩ := ends_host hread
    · refine ⟨(Prod.ext_iff.mp hread).2.symm, Or.inl ⟨e, rfl, fun other hmessage => ?_⟩⟩
      cases hr
      simpa [unwritten_eq, toString] using congrArg String.toList hmessage
    · cases hr
  · obtain ⟨_, _, hr⟩ | ⟨_, hread, hr⟩ := ends_host hread
    · cases hr
    · cases hr
      obtain ⟨htext, rfl⟩ := Prod.ext_iff.mp hread
      rcases hloaded : load (.ofPath path) text with e | a
      · rw [hloaded] at hload
        cases hload
        refine ⟨rfl, Or.inl ⟨_, rfl, fun other hmessage => ?_⟩⟩
        simpa [unwritten_eq, toString] using congrArg String.toList hmessage
      · rw [hloaded] at hload
        cases hload
        exact ⟨rfl, Or.inr ⟨text, a, htext, hloaded, rfl⟩⟩

/-- Warnings have no effect on files. -/
theorem ends_warn {ds : List α} {warning : α → String} {r : Except Failure PUnit}
    (h : Ends (ds.forM fun d => (Host.warn (warning d) : StateM Surroundings Unit)) s r s') :
    r = .ok ⟨⟩ ∧ s'.files = s.files ∧ s'.directory = s.directory := by
  induction ds generalizing s with
  | nil =>
    cases h
    exact ⟨rfl, rfl, rfl⟩
  | cons d ds ih =>
    rcases ends_bind h with ⟨e, hwarn, -⟩ | ⟨a, s₁, hwarn, hrest⟩
    · cases hwarn
    · cases hwarn
      have hsame := ih hrest
      exact hsame

theorem ends_write {path text : String} {r : Except Failure Unit}
    (h : Ends (host "write" path (Host.write path text)) s r s') :
    (∃ e f, s.files.write s.directory path text = .error e ∧ r = .error f ∧
        f.message = unwritten path ∧ s' = s) ∨
      ∃ t, s.files.write s.directory path text = .ok t ∧ r = .ok () ∧
        s' = { s with files := t } := by
  have hchange (q) (hq : Surroundings.change (s.files.write s.directory path text) s = (q, s')) :
      (∃ e, s.files.write s.directory path text = .error e ∧ q = .error e ∧ s' = s) ∨
        ∃ t, s.files.write s.directory path text = .ok t ∧ q = .ok () ∧
          s' = { s with files := t } := by
    rcases hwrite : s.files.write s.directory path text with e | t
    · rw [hwrite] at hq
      cases hq
      exact Or.inl ⟨e, rfl, rfl, rfl⟩
    · rw [hwrite] at hq
      cases hq
      exact Or.inr ⟨t, rfl, rfl, rfl⟩
  rcases ends_host h with ⟨e, hrun, rfl⟩ | ⟨a, hrun, rfl⟩
  · obtain ⟨e', hwrite, -, hs⟩ | ⟨_, _, hq, -⟩ := hchange _ hrun
    · refine Or.inl ⟨e', _, hwrite, rfl, ?_, hs⟩
      rw [unwritten_eq, ← String.toList_inj]
      simp [toString]
    · cases hq
  · obtain ⟨_, _, hq, -⟩ | ⟨t, hwrite, -, hs⟩ := hchange _ hrun
    · cases hq
    · exact Or.inr ⟨t, hwrite, rfl, hs⟩

theorem ends_make {directory : String} {r : Except Failure Unit}
    (h : Ends (host "create" directory (make directory)) s r s') :
    (r = .ok () ∨ ∃ f, r = .error f ∧ Elsewhere f) ∧ ∃ t, s' = { s with files := t } ∧
      s.files.GrownIn (Surroundings.Reached directory s.directory) t := by
  obtain ⟨a, t, hmake, hgrown⟩ := Surroundings.makes_make directory s
  have hstate : (make directory : StateM Surroundings _) s = (a, { s with files := t }) := hmake
  rcases ends_host h with ⟨e, hrun, rfl⟩ | ⟨_, hrun, rfl⟩
  · rw [hstate] at hrun
    refine ⟨Or.inr ⟨_, rfl, fun other hmessage => ?_⟩, t, (Prod.ext_iff.mp hrun).2.symm, hgrown⟩
    simpa [unwritten_eq, toString] using congrArg String.toList hmessage
  · rw [hstate] at hrun
    exact ⟨Or.inl rfl, t, (Prod.ext_iff.mp hrun).2.symm, hgrown⟩

/-! ## Results -/

/-- The outcome of the normalization of the graph in a file. -/
def Normalizes [YamlReader] (s : Surroundings) (graph : String) (n : Normalized) : Prop :=
  ∃ text g, s.files.read s.directory graph = .ok text ∧
    Graph.load (.ofPath graph) text = .ok g ∧ g.normalize = .ok n

/-- No file has been written: at most directories have come, and where the directory is written
without leading back, not even at the places of its files. -/
structure Untouched (directory : String) (here : List String) (t t' : FileTree) : Prop where
  grown : t.Grown t'
  same : ".." ∉ names directory → ∀ file, IsFileName file →
    t.SameAt t' here (joinPath directory file)

theorem same_of_grownIn {directory file : String} {here p : List String} {t t' t'' : FileTree}
    (h : t.GrownIn (Surroundings.Reached directory here) t') (honward : ".." ∉ names directory)
    (hfile : IsFileName file) (hp : t''.locate here (joinPath directory file) = .ok p) :
    t' p = t p := by
  rcases h p with hsame | ⟨-, -, hne, hreached⟩
  · exact hsame
  · have hlength := FileTree.length_place_joinPath hfile hp hne honward
    rw [FileTree.reachOf] at hreached
    omega

theorem untouched_of_grownIn {directory : String} {here : List String} {t t' : FileTree}
    (h : t.GrownIn (Surroundings.Reached directory here) t') : Untouched directory here t t' :=
  ⟨h.grown, fun honward _ hfile _ hp => same_of_grownIn h honward hfile hp⟩

/-- Both schemas are there, and nothing else has been written. -/
structure Written (directory : String) (pretty : Bool) (here : List String) (n : Normalized)
    (t t' : FileTree) : Prop where
  input : t'.read here (joinPath directory "input.json") =
    .ok (render pretty (Encode.inputSchema n.input))
  output : t'.read here (joinPath directory "output.json") =
    .ok (render pretty (Encode.outputSchema n.output))
  steps : ∃ t₁ t₂, Untouched directory here t t₁ ∧
    t₁.write here (joinPath directory "input.json") (render pretty (Encode.inputSchema n.input)) =
      .ok t₂ ∧
    t₂.write here (joinPath directory "output.json")
      (render pretty (Encode.outputSchema n.output)) = .ok t'

/-- The second of the schemas could not be written after the first one. -/
structure HalfWritten (directory : String) (pretty : Bool) (here : List String) (n : Normalized)
    (t t' : FileTree) : Prop where
  input : t'.read here (joinPath directory "input.json") =
    .ok (render pretty (Encode.inputSchema n.input))
  output : ".." ∉ names directory → t.SameAt t' here (joinPath directory "output.json")
  steps : ∃ t₁ e, Untouched directory here t t₁ ∧
    t₁.write here (joinPath directory "input.json") (render pretty (Encode.inputSchema n.input)) =
      .ok t' ∧
    t'.write here (joinPath directory "output.json")
      (render pretty (Encode.outputSchema n.output)) = .error e

theorem unwritten_input_ne_output (directory : String) :
    unwritten (joinPath directory "input.json") ≠ unwritten (joinPath directory "output.json") := by
  intro h
  rw [unwritten_eq, unwritten_eq] at h
  have hchars := congrArg String.toList h
  simp only [joinPath] at hchars
  split at hchars <;> simp at hchars

/-- What is left to do for a directory once there is a result. -/
def writeSchemas (directory : String) (pretty : Bool) (n : Normalized) :
    Step (StateM Surroundings) Unit := do
  host "create" directory (make directory)
  host "write" (joinPath directory "input.json")
    (Host.write (joinPath directory "input.json") (render pretty (Encode.inputSchema n.input)))
  host "write" (joinPath directory "output.json")
    (Host.write (joinPath directory "output.json") (render pretty (Encode.outputSchema n.output)))

theorem ends_writeSchemas {directory : String} {pretty : Bool} {n : Normalized}
    {r : Except Failure Unit} (h : Ends (writeSchemas directory pretty n) s r s') :
    s'.directory = s.directory ∧
      ((r = .ok () ∧ Written directory pretty s.directory n s.files s'.files) ∨
        ∃ f, r = .error f ∧
          ((f.message ≠ unwritten (joinPath directory "output.json") ∧
              Untouched directory s.directory s.files s'.files) ∨
            (f.message = unwritten (joinPath directory "output.json") ∧
              HalfWritten directory pretty s.directory n s.files s'.files))) := by
  rcases ends_bind h with ⟨e, hmake, rfl⟩ | ⟨_, s₁, hmake, h⟩
  · obtain ⟨hr, t, rfl, hgrown⟩ := ends_make hmake
    obtain hr | ⟨f, hr, hreport⟩ := hr
    · cases hr
    · cases hr
      exact ⟨rfl, Or.inr ⟨e, rfl, Or.inl ⟨hreport _, untouched_of_grownIn hgrown⟩⟩⟩
  obtain ⟨-, t, rfl, hgrown⟩ := ends_make hmake
  have huntouched := untouched_of_grownIn hgrown
  rcases ends_bind h with ⟨e, hinput, rfl⟩ | ⟨_, s₂, hinput, houtput⟩
  · obtain ⟨_, f, -, hr, hreport, rfl⟩ | ⟨_, -, hr, -⟩ := ends_write hinput
    · cases hr
      refine ⟨rfl, Or.inr ⟨e, rfl, Or.inl ⟨fun hsecond => ?_, huntouched⟩⟩⟩
      exact unwritten_input_ne_output directory (hreport.symm.trans hsecond)
    · cases hr
  obtain ⟨_, _, -, hr, -⟩ | ⟨t', hinput', -, rfl⟩ := ends_write hinput
  · cases hr
  obtain ⟨e, f, houtput', rfl, hreport, rfl⟩ | ⟨t'', houtput', rfl, rfl⟩ := ends_write houtput
  · refine ⟨rfl, Or.inr ⟨f, rfl, Or.inr ⟨hreport, FileTree.read_of_written hinput',
      fun honward p hp => ?_, t, e, huntouched, hinput', houtput'⟩⟩⟩
    have hwritten : t' p = t p :=
      FileTree.write_elsewhere isFileName_input isFileName_output (by decide) hinput' hp
    exact hwritten.trans (same_of_grownIn hgrown honward isFileName_output hp)
  · exact ⟨rfl, Or.inl ⟨rfl, FileTree.read_of_written_elsewhere isFileName_output isFileName_input
      (by decide) hinput' houtput', FileTree.read_of_written houtput', t, t', huntouched, hinput',
      houtput'⟩⟩

/-- How a run that fails leaves the files, by what it reports. -/
inductive Left [YamlReader] (graph directory : String) (pretty : Bool) (s : Surroundings)
    (f : Failure) (t : FileTree) : Prop where
  | untouched (hreport : f.message ≠ unwritten (joinPath directory "output.json"))
      (h : Untouched directory s.directory s.files t)
  | halfWritten (n : Normalized)
      (hreport : f.message = unwritten (joinPath directory "output.json"))
      (hn : Normalizes s graph n) (h : HalfWritten directory pretty s.directory n s.files t)

theorem ends_runNormalize [YamlReader] {graph directory : String} {pretty : Bool}
    {r : Except Failure Unit}
    (h : Ends (runNormalize graph (some directory) pretty) s r s') : s'.directory = s.directory ∧
    ((r = .ok () ∧ ∃ n, Normalizes s graph n ∧
        Written directory pretty s.directory n s.files s'.files) ∨
      ∃ f, r = .error f ∧ Left graph directory pretty s f s'.files) := by
  have hnothing : Untouched directory s.directory s.files s.files :=
    untouched_of_grownIn .refl
  rcases ends_bind h with ⟨e, hread, rfl⟩ | ⟨g, s₁, hread, hrest⟩
  · obtain ⟨rfl, ⟨f, hr, hreport⟩ | ⟨_, _, _, _, hr⟩⟩ := ends_readDocument hread
    · cases hr
      exact ⟨rfl, Or.inr ⟨e, rfl, .untouched (hreport _) hnothing⟩⟩
    · cases hr
  obtain ⟨rfl, ⟨_, hr, -⟩ | ⟨text, _, htext, hload, hr⟩⟩ := ends_readDocument hread
  · cases hr
  cases hr
  rcases hnormalize : g.normalize with e | n
  · rw [hnormalize] at hrest
    cases hrest
    have hreport : Elsewhere ⟨s!"failed to normalize {graph}", [e.message]⟩ := by
      intro other hmessage
      simpa [unwritten_eq, toString] using congrArg String.toList hmessage
    exact ⟨rfl, Or.inr ⟨_, rfl, .untouched (hreport _) hnothing⟩⟩
  · rw [hnormalize] at hrest
    have hn : Normalizes s₁ graph n := ⟨text, g, htext, hload, hnormalize⟩
    rcases ends_bind hrest with ⟨_, hpure, -⟩ | ⟨_, _, hpure, hwarned⟩
    · cases hpure
    cases hpure
    rcases ends_bind hwarned with ⟨_, hwarn, -⟩ | ⟨_, s₂, hwarn, hwritten⟩
    · obtain ⟨hr, -⟩ := ends_warn hwarn
      cases hr
    obtain ⟨-, hfiles, hhere⟩ := ends_warn hwarn
    obtain ⟨hsame, hcases⟩ := ends_writeSchemas (n := n) hwritten
    rw [hfiles, hhere] at hcases
    refine ⟨hsame.trans hhere, ?_⟩
    obtain ⟨hr, h⟩ | ⟨f, hr, ⟨hreport, h⟩ | ⟨hreport, h⟩⟩ := hcases
    · exact Or.inl ⟨hr, n, hn, h⟩
    · exact Or.inr ⟨f, hr, .untouched hreport h⟩
    · exact Or.inr ⟨f, hr, .halfWritten n hreport hn h⟩

end Command

namespace Invocation

open Command

/-- What a command line does in given surroundings: its exit code, and what it leaves behind. -/
def exec [YamlReader] (words : List String) (s : Surroundings) : Nat × Surroundings :=
  ((ofWords false words).perform : StateM Surroundings Nat) s

theorem exec_run [YamlReader] {words : List String} {command : Command} {s s' : Surroundings}
    {r : Except Failure Unit} (hwords : ofWords false words = .run command)
    (h : Ends command.run s r s') :
    (r = .ok () → exec words s = (0, s')) ∧
      ∀ f, r = .error f → exec words s = (1, { s' with warned := s'.warned ++ f.text }) := by
  have hperform : exec words s = ((perform (.run command) : StateM Surroundings Nat)).run s := by
    rw [exec, hwords]
    rfl
  rw [hperform, perform, StateT.run_bind]
  rw [Ends] at h
  constructor
  · rintro rfl
    rw [h]
    rfl
  · rintro f rfl
    rw [h]
    rfl

/-- **What a normalization into a directory leaves behind**, with any reader of YAML.  If it ends
well, both schemas of the normalized graph are there.  If it fails, its report comes last of what is
printed.  When that says that the second schema could not be written, the first one is there, and
the second is as it was; otherwise nothing has been written. -/
theorem exec_normalize_into_directory [YamlReader] {words : List String}
    {graph directory : String} {pretty : Bool}
    (hwords : ofWords false words = .run (.normalize graph (some directory) pretty))
    (s : Surroundings) : ∃ code s', exec words s = (code, s') ∧ s'.directory = s.directory ∧
      ((code = 0 ∧ ∃ n, Normalizes s graph n ∧
          Written directory pretty s.directory n s.files s'.files) ∨
        (code = 1 ∧ ∃ before f, s'.warned = before ++ Failure.text f ∧
          Left graph directory pretty s f s'.files)) := by
  obtain ⟨r, s₁, hends⟩ : ∃ r s₁, Ends (runNormalize graph (some directory) pretty) s r s₁ :=
    ⟨_, _, rfl⟩
  obtain ⟨hok, herror⟩ := exec_run hwords hends
  obtain ⟨hhere, ⟨hr, hwritten⟩ | ⟨f, hr, hleft⟩⟩ := ends_runNormalize hends
  · exact ⟨0, s₁, hok hr, hhere, Or.inl ⟨rfl, hwritten⟩⟩
  · exact ⟨1, _, herror f hr, hhere, Or.inr ⟨rfl, _, f, rfl, hleft⟩⟩

/-- A desk with a graph of one scalar on it, and an older schema. -/
def desk : Surroundings where
  files := .ofFiles ["desk"]
    [("graph.json",
        "\x7b\"entities\":\x7b\"Text\":\x7b\"kind\":\"Scalar\",\"name\":\"Text\"\x7d\x7d\x7d"),
      ("input.json", "old")]
  directory := ["desk"]
  printed := ""
  warned := ""

def wordsInto (directory : String) : List String :=
  ["normalize", "--graph", "graph.json", "--out", directory]

theorem exec_normalize_into_directory_desk :
    ofWords false (wordsInto "out") = .run (.normalize "graph.json" (some "out") false) ∧
    ∃ s' n, exec (wordsInto "out") desk = (0, s') ∧ Normalizes desk "graph.json" n ∧
      Written "out" false ["desk"] n desk.files s'.files := by
  have hwords : ofWords false (wordsInto "out") =
      .run (.normalize "graph.json" (some "out") false) := rfl
  have hzero : (exec (wordsInto "out") desk).1 = 0 := by decide +kernel
  obtain ⟨code, s', hrun, -, hcases⟩ := exec_normalize_into_directory hwords desk
  rw [hrun] at hzero
  obtain ⟨-, n, hn, hwritten⟩ | ⟨hone, -⟩ := hcases
  · exact ⟨hwords, s', n, hrun.trans (Prod.ext hzero rfl), hn, hwritten⟩
  · exact absurd (hone.symm.trans hzero) (by decide)

/-- A second schema that cannot be written does not undo the first one. -/
theorem not_all_or_nothing_desk : ∃ words s',
    ofWords false words = .run (.normalize "graph.json" (some "output.json/..") false) ∧
    exec words desk = (1, s') ∧
    ¬ desk.files.SameAt s'.files desk.directory (joinPath "output.json/.." "input.json") := by
  refine ⟨wordsInto "output.json/..", ?_⟩
  have hcode : (exec (wordsInto "output.json/..") desk).1 = 1 := by decide +kernel
  have hlocate : ((exec (wordsInto "output.json/..") desk).2.files.locate ["desk"]
      (joinPath "output.json/.." "input.json")).toOption = some ["desk", "input.json"] := by
    decide +kernel
  have hread : ((exec (wordsInto "output.json/..") desk).2.files.read ["desk"]
      (joinPath "output.json/.." "input.json")).toOption ≠ some "old" := by
    decide +kernel
  -- the facts about the run are all that is needed of it from here on
  generalize exec (wordsInto "output.json/..") desk = result at *
  generalize joinPath "output.json/.." "input.json" = path at *
  obtain ⟨code, s'⟩ := result
  obtain rfl : code = 1 := hcode
  refine ⟨s', rfl, rfl, fun hsame => hread ?_⟩
  have hlocated := Except.eq_ok_of_toOption hlocate
  have hold : desk.files ["desk", "input.json"] = some (.file "old") := rfl
  rw [FileTree.read_of_locate hlocated ((hsame _ hlocated).trans hold)]
  rfl

end Invocation

end EntityGraph
