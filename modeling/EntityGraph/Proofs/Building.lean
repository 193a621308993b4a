import EntityGraph.Document.Load
import EntityGraph.Proofs.Nesting

/-!
# Graphs from documents and graphs built by hand

A graph can be read from a document, or built by declaring one node after another.  For a document
with `members` under `entities`, and nothing else, the two agree:

    load = .ok g     ↔ the members decode to nodes, and declaring these in order gives g
    load = .error e  ↔ e is what is wrong with the first member with which something is wrong
                                                            (Graph.load_agrees_with_declaring)

Reading goes from left to right with the graph of what has been declared (`readMembers_cons`), so
both directions are by induction on the members, for any graph to start from.  Something is wrong
with a member if it cannot be decoded, or if it can and its name stands before it (`Graph.Defect`).

A call that is refused leaves the graph as it was, and the calls after it go on with that graph
(`Graph.KeepsFirst`).
-/

namespace EntityGraph

/-! ## Algorithm -/

/-- Where a node stands in the document of a graph: behind two brackets. -/
def Reading.entity : Reading := Reading.document.enter.enter

/-- A document that is an object with entities and nothing else. -/
def Draft.Document.ofEntities (members : List (String × Draft)) : Draft.Document where
  root := .obj [(.str (some "entities"),
    .obj (members.map fun p => (.str (some p.1), p.2)) true)] true
  overrun := false

namespace Graph

/-- Declares nodes one after another, up to the first that is refused. -/
def declareAll (nodes : List (String × Node)) : Change Unit :=
  forM nodes fun p => declare p.1 p.2

/-- A member of a document, and the node that is read from it. -/
def Decodes (p : String × Draft) (q : String × Node) : Prop :=
  q.1 = p.1 ∧ Decoder.node .entity p.2 = .ok q.2

/-- What is wrong with a member, behind names that are taken. -/
inductive Defect (taken : List String) (members : List (String × Draft)) (i : Nat) :
    DecodeError → Prop where
  | undecodable {name : String} {d : Draft} {e : DecodeError} (hi : members[i]? = some (name, d))
      (h : Decoder.node .entity d = .error e) : Defect taken members i e
  | repeated {name : String} {d : Draft} {n : Node} (hi : members[i]? = some (name, d))
      (h : Decoder.node .entity d = .ok n)
      (hname : name ∈ taken ++ (members.take i).map Prod.fst) :
      Defect taken members i (.duplicateEntity name)

/-- The first member with which something is wrong. -/
def FirstDefect (taken : List String) (members : List (String × Draft)) (i : Nat)
    (e : DecodeError) : Prop :=
  Defect taken members i e ∧ ∀ j < i, ∀ e', ¬ Defect taken members j e'

end Graph

/-- A call that declares a node in a graph. -/
inductive Declaration where
  | node (name : String) (n : Node)
  | object (o : Object)
  | scalar (name : String)

namespace Declaration

def name : Declaration → String
  | .node name _ => name
  | .object o => o.escapedName
  | .scalar name => name

def declared : Declaration → Node
  | .node _ n => n
  | .object o => .object o
  | .scalar name => .scalar ⟨name, none⟩

def apply : Declaration → Graph.Change Unit
  | .node name n => Graph.declare name n
  | .object o => discard (Graph.declareObject o)
  | .scalar name => Graph.declareScalar name

end Declaration

namespace Graph

/-- The graph after a change, be it refused or not. -/
def Change.after {α : Type} (x : Change α) (g : Graph) : Graph :=
  match x.run g with
  | .ok _ g' => g'
  | .error _ g' => g'

/-- The graph after some calls, each of which may be refused. -/
def after (g : Graph) (calls : List Declaration) : Graph :=
  calls.foldl (fun g call => call.apply.after g) g

/-- What holds of a graph after any calls: each name is bound to its first node, and the next call
is refused, without effect, exactly if its name is taken. -/
structure KeepsFirst (g : Graph) (calls : List Declaration) : Prop where
  first : ∀ name, (g.after calls).find? name =
    (g.find? name).or ((calls.find? (·.name = name)).map (·.declared))
  refused : ∀ call : Declaration, (call.name ∈ g.names ∨ ∃ c ∈ calls, c.name = call.name) →
    call.apply.run (g.after calls) = .error (.duplicateEntity call.name) (g.after calls) ∧
      g.after (calls ++ [call]) = g.after calls
  accepted : ∀ call : Declaration, ¬ (call.name ∈ g.names ∨ ∃ c ∈ calls, c.name = call.name) →
    call.apply.run (g.after calls) = .ok () (g.after (calls ++ [call])) ∧
      (g.after (calls ++ [call])).entities.entries =
        (g.after calls).entities.entries ++ [(call.name, call.declared)]

/-! ## Lemmas -/

variable {g g' : Graph} {name : String} {n : Node} {p : String × Draft}
  {rest members : List (String × Draft)} {taken : List String} {e : DecodeError}

theorem run_declare_of_mem (h : name ∈ g.names) (n : Node) :
    (declare name n).run g = .error (.duplicateEntity name) g := by
  have htaken : g.contains name = true := Dict.contains_iff.mpr h
  rw [run_declare, if_pos htaken]

theorem run_declare_of_notMem (h : name ∉ g.names) (n : Node) :
    (declare name n).run g = .ok () ⟨g.entities.insert name n⟩ := by
  rw [run_declare, if_neg]
  rwa [contains, Dict.contains_iff]

/-- A node that is declared comes last. -/
theorem entries_of_declare (h : (declare name n).run g = .ok () g') :
    g'.entities.entries = g.entities.entries ++ [(name, n)] := by
  by_cases hname : name ∈ g.names
  · rw [run_declare_of_mem hname] at h
    cases h
  · rw [run_declare_of_notMem hname] at h
    cases h
    exact Dict.entries_insert_of_not_mem n hname

theorem names_of_declare (h : (declare name n).run g = .ok () g') :
    g'.names = g.names ++ [name] := by
  rw [names, names, Dict.keys, Dict.keys, entries_of_declare h, Assoc.keys_append]
  rfl

theorem declareAll_cons_ok_iff {q : String × Node} {nodes : List (String × Node)} :
    (declareAll (q :: nodes)).run g = .ok () g' ↔
      ∃ g₁, (declare q.1 q.2).run g = .ok () g₁ ∧ (declareAll nodes).run g₁ = .ok () g' := by
  rw [declareAll, List.forM_cons, EStateM.run_bind]
  cases (declare q.1 q.2).run g with
  | ok _ g₁ => simp [declareAll]
  | error e g₁ => simp

theorem names_of_declareAll {nodes : List (String × Node)}
    (h : (declareAll nodes).run g = .ok () g') : g'.names = g.names ++ nodes.map Prod.fst := by
  induction nodes generalizing g with
  | nil =>
    cases h
    simp
  | cons q nodes ih =>
    obtain ⟨g₁, hdeclare, hrest⟩ := declareAll_cons_ok_iff.mp h
    rw [ih hrest, names_of_declare hdeclare]
    simp

theorem map_fst_of_decodes {nodes : List (String × Node)}
    (h : List.Forall₂ Decodes members nodes) : nodes.map Prod.fst = members.map Prod.fst := by
  induction h with
  | nil => rfl
  | cons hp hrest ih => rw [List.map_cons, List.map_cons, hp.1, ih]

/-! ### Loading -/

/-- The members of entities as they are read from left to right. -/
def readMembers (g : Graph) (members : List (String × Draft)) : Except DecodeError Graph :=
  Decoder.membersInto Decoder.node Decoder.declare .entity g
    (members.map fun p => (.str (some p.1), p.2))

theorem load_ofEntities [YamlReader] {text : String}
    (h : Draft.ofText text = .ofEntities members) :
    load .json text = (empty.readMembers members).mapError .json := by
  have hentities : Decoder.entities Reading.document.enter
      (.obj (members.map fun p => (.str (some p.1), p.2)) true) = empty.readMembers members := by
    show (empty.readMembers members >>= fun g => .ok g) = _
    cases empty.readMembers members <;> rfl
  have hgraph : Decoder.graph .document (Draft.Document.ofEntities members).root =
      empty.readMembers members := by
    rw [← hentities]
    show Record.settle none (Except.mapError _ _) = _
    cases Decoder.entities Reading.document.enter
      (.obj (members.map fun p => (.str (some p.1), p.2)) true) <;> rfl
  rw [load, Decoder.read, h, hgraph]
  cases empty.readMembers members <;> rfl

theorem readMembers_cons : g.readMembers (p :: rest) =
    (do let n ← Decoder.node .entity p.2
        let g' ← Decoder.declare g p.1 n
        g'.readMembers rest) := rfl

theorem decoder_declare_ok_iff :
    Decoder.declare g name n = .ok g' ↔ (declare name n).run g = .ok () g' := by
  rw [Decoder.declare, insert, Change.result]
  cases (declare name n).run g <;> simp [Except.mapError]

theorem decoder_declare_of_mem (h : name ∈ g.names) (n : Node) :
    Decoder.declare g name n = .error (.duplicateEntity name) := by
  rw [Decoder.declare, insert, Change.result, run_declare_of_mem h]
  rfl

/-- Reading succeeds if each member can be decoded, and the nodes can be declared in this order. -/
theorem readMembers_ok_iff : g.readMembers members = .ok g' ↔
    ∃ nodes, List.Forall₂ Decodes members nodes ∧ (declareAll nodes).run g = .ok () g' := by
  induction members generalizing g with
  | nil =>
    constructor
    · intro h
      cases h
      exact ⟨[], .nil, rfl⟩
    · rintro ⟨_, ⟨⟩, h⟩
      cases h
      rfl
  | cons p rest ih =>
    simp only [readMembers_cons, Except.bind_eq_ok_iff, decoder_declare_ok_iff, ih]
    constructor
    · rintro ⟨n, hn, g₁, hdeclare, nodes, hrest, hall⟩
      exact ⟨(p.1, n) :: nodes, .cons ⟨rfl, hn⟩ hrest,
        declareAll_cons_ok_iff.mpr ⟨g₁, hdeclare, hall⟩⟩
    · rintro ⟨_, hnodes, hall⟩
      obtain _ | @⟨_, ⟨name, n⟩, _, nodes, ⟨rfl, hn⟩, hrest⟩ := hnodes
      obtain ⟨g₁, hdeclare, hall⟩ := declareAll_cons_ok_iff.mp hall
      exact ⟨n, hn, g₁, hdeclare, nodes, hrest, hall⟩

theorem defect_zero_iff : Defect taken (p :: rest) 0 e ↔
    Decoder.node .entity p.2 = .error e ∨
      ∃ n, Decoder.node .entity p.2 = .ok n ∧ p.1 ∈ taken ∧ e = .duplicateEntity p.1 := by
  constructor
  · rintro (⟨hi, h⟩ | ⟨hi, h, hname⟩)
    · cases hi
      exact Or.inl h
    · cases hi
      exact Or.inr ⟨_, h, by simpa using hname, rfl⟩
  · rintro (h | ⟨n, h, hname, rfl⟩)
    · exact .undecodable rfl h
    · exact .repeated rfl h (List.mem_append_left _ hname)

theorem defect_succ_iff {i : Nat} :
    Defect taken (p :: rest) (i + 1) e ↔ Defect (taken ++ [p.1]) rest i e := by
  constructor
  · rintro (⟨hi, h⟩ | ⟨hi, h, hname⟩)
    · exact .undecodable hi h
    · exact .repeated hi h (by simpa using hname)
  · rintro (⟨hi, h⟩ | ⟨hi, h, hname⟩)
    · exact .undecodable hi h
    · exact .repeated hi h (by simpa using hname)

/-- The first defect is that of the first member, or the first one behind it. -/
theorem exists_firstDefect_cons_iff : (∃ i, FirstDefect taken (p :: rest) i e) ↔
    Defect taken (p :: rest) 0 e ∨ (∀ e', ¬ Defect taken (p :: rest) 0 e') ∧
      ∃ i, FirstDefect (taken ++ [p.1]) rest i e := by
  constructor
  · rintro ⟨i, hdefect, hfirst⟩
    cases i with
    | zero => exact Or.inl hdefect
    | succ i =>
      refine Or.inr ⟨hfirst 0 (Nat.zero_lt_succ i), i, defect_succ_iff.mp hdefect, ?_⟩
      intro j hj e' hdefect'
      exact hfirst (j + 1) (Nat.succ_lt_succ hj) e' (defect_succ_iff.mpr hdefect')
  · rintro (hdefect | ⟨hnone, i, hdefect, hfirst⟩)
    · exact ⟨0, hdefect, fun j hj => absurd hj (Nat.not_lt_zero j)⟩
    · refine ⟨i + 1, defect_succ_iff.mpr hdefect, fun j hj e' hdefect' => ?_⟩
      cases j with
      | zero => exact hnone e' hdefect'
      | succ j => exact hfirst j (Nat.lt_of_succ_lt_succ hj) e' (defect_succ_iff.mp hdefect')

theorem Defect.unique {i : Nat} {e' : DecodeError} (h : Defect taken members i e)
    (h' : Defect taken members i e') : e = e' := by
  cases h with
  | undecodable hi hnode =>
    cases h' with
    | undecodable hi' hnode' =>
      cases hi.symm.trans hi'
      exact Except.error.inj (hnode.symm.trans hnode')
    | repeated hi' hnode' _ =>
      cases hi.symm.trans hi'
      cases hnode.symm.trans hnode'
  | repeated hi hnode _ =>
    cases h' with
    | undecodable hi' hnode' =>
      cases hi.symm.trans hi'
      cases hnode.symm.trans hnode'
    | repeated hi' _ _ =>
      cases hi.symm.trans hi'
      rfl

/-- Either reading stops at a defect of the first member, or that member has none and is declared
before the rest is read. -/
theorem readMembers_cons_cases (g : Graph) (p : String × Draft) (rest : List (String × Draft)) :
    (∃ e, Defect g.names (p :: rest) 0 e ∧ g.readMembers (p :: rest) = .error e) ∨
      (∀ e, ¬ Defect g.names (p :: rest) 0 e) ∧
        ∃ g' : Graph, g'.names = g.names ++ [p.1] ∧
          g.readMembers (p :: rest) = g'.readMembers rest := by
  rw [readMembers_cons]
  simp only [defect_zero_iff]
  cases hnode : Decoder.node .entity p.2 with
  | error e => exact Or.inl ⟨e, Or.inl rfl, rfl⟩
  | ok n =>
    by_cases hname : p.1 ∈ g.names
    · refine Or.inl ⟨_, Or.inr ⟨n, rfl, hname, rfl⟩, ?_⟩
      show (Decoder.declare g p.1 n >>= _) = _
      rw [decoder_declare_of_mem hname n]
      rfl
    · have hdeclare := run_declare_of_notMem hname n
      refine Or.inr ⟨?_, _, names_of_declare hdeclare, ?_⟩
      · rintro e (h | ⟨_, -, hmem, -⟩)
        · cases h
        · exact hname hmem
      · show (Decoder.declare g p.1 n >>= _) = _
        rw [decoder_declare_ok_iff.mpr hdeclare]
        rfl

/-- Reading fails with the first defect. -/
theorem readMembers_error_iff : g.readMembers members = .error e ↔
    ∃ i, FirstDefect g.names members i e := by
  induction members generalizing g with
  | nil =>
    constructor
    · intro h
      cases h
    · rintro ⟨i, ⟨hi, -⟩ | ⟨hi, -, -⟩, -⟩ <;> cases hi
  | cons p rest ih =>
    rw [exists_firstDefect_cons_iff]
    obtain ⟨e₀, hdefect, hread⟩ | ⟨hnone, g₁, hnames, hread⟩ := readMembers_cons_cases g p rest
    · rw [hread]
      constructor
      · intro h
        cases h
        exact Or.inl hdefect
      · rintro (h | ⟨hnone, -⟩)
        · rw [hdefect.unique h]
        · exact absurd hdefect (hnone e₀)
    · rw [hread, ih, hnames]
      constructor
      · exact fun h => Or.inr ⟨hnone, h⟩
      · rintro (h | ⟨-, h⟩)
        · exact absurd h (hnone e)
        · exact h

/-! ### Calls -/

theorem apply_eq_declare (call : Declaration) : call.apply = declare call.name call.declared := by
  cases call with
  | node name n => rfl
  | object o =>
    simp only [Declaration.apply, declareObject, discard, map_const, Function.comp, bind_pure_comp,
      Functor.map_map]
    exact id_map (declare o.escapedName (.object o))
  | scalar name => rfl

theorem after_append (g : Graph) (calls : List Declaration) (call : Declaration) :
    g.after (calls ++ [call]) = call.apply.after (g.after calls) := by
  rw [after, List.foldl_append]
  rfl

/-- A call whose name is taken is refused and leaves the graph as it was. -/
theorem run_apply_of_mem {call : Declaration} (h : call.name ∈ g.names) :
    call.apply.run g = .error (.duplicateEntity call.name) g := by
  rw [apply_eq_declare, run_declare_of_mem h]

theorem run_apply_of_notMem {call : Declaration} (h : call.name ∉ g.names) :
    call.apply.run g = .ok () ⟨g.entities.insert call.name call.declared⟩ := by
  rw [apply_eq_declare, run_declare_of_notMem h]

theorem Change.after_of_ok {α : Type} {x : Change α} {a : α} (h : x.run g = .ok a g') :
    x.after g = g' := by
  rw [Change.after, h]

theorem Change.after_of_error {α : Type} {x : Change α} {e : GraphError}
    (h : x.run g = .error e g') : x.after g = g' := by
  rw [Change.after, h]

/-- A call binds its name, if that is not bound already. -/
theorem find?_after_apply (g : Graph) (call : Declaration) (name : String) :
    (call.apply.after g).find? name =
      (g.find? name).or (if call.name = name then some call.declared else none) := by
  by_cases htaken : call.name ∈ g.names
  · rw [Change.after_of_error (run_apply_of_mem htaken)]
    by_cases hname : call.name = name
    · obtain ⟨n, hn⟩ : ∃ n, g.find? name = some n :=
        Option.isSome_iff_exists.mp (Dict.contains_iff.mpr (hname ▸ htaken))
      rw [hn, Option.some_or]
    · rw [if_neg hname, Option.or_none]
  · rw [Change.after_of_ok (run_apply_of_notMem htaken)]
    by_cases hname : call.name = name
    · subst hname
      have hnone : g.find? call.name = none := Dict.find?_eq_none_iff.mpr htaken
      rw [hnone, if_pos rfl, Option.none_or]
      exact Dict.find?_insert_self ..
    · rw [if_neg hname, Option.or_none]
      exact Dict.find?_insert_of_ne _ _ (Ne.symm hname)

theorem find?_after (g : Graph) (calls : List Declaration) (name : String) :
    (g.after calls).find? name =
      (g.find? name).or ((calls.find? (·.name = name)).map (·.declared)) := by
  induction calls generalizing g with
  | nil => simp [after]
  | cons call calls ih =>
    have hafter : g.after (call :: calls) = (call.apply.after g).after calls := rfl
    rw [hafter, ih, find?_after_apply, Option.or_assoc, List.find?_cons]
    by_cases hname : call.name = name
    · simp [hname]
    · simp [hname]

theorem mem_names_after {calls : List Declaration} :
    name ∈ (g.after calls).names ↔ name ∈ g.names ∨ ∃ call ∈ calls, call.name = name := by
  have hsome (g : Graph) : name ∈ g.names ↔ (g.find? name).isSome = true := Dict.contains_iff.symm
  rw [hsome, hsome, find?_after, Option.isSome_or, Bool.or_eq_true, Option.isSome_map,
    List.find?_isSome]
  simp

theorem keepsFirst (g : Graph) (calls : List Declaration) : g.KeepsFirst calls where
  first := find?_after g calls
  refused call htaken := by
    have hrefused := run_apply_of_mem (mem_names_after.mpr htaken)
    rw [after_append]
    exact ⟨hrefused, Change.after_of_error hrefused⟩
  accepted call hfree := by
    have hmem : call.name ∉ (g.after calls).names := mt mem_names_after.mp hfree
    have haccepted := run_apply_of_notMem hmem
    rw [after_append, Change.after_of_ok haccepted]
    exact ⟨haccepted, Dict.entries_insert_of_not_mem _ hmem⟩

/-! ### Documents and calls -/

/-- **Loading a graph agrees with building it.**  A document with entities is read to the graph
that its nodes give when they are declared in the order of the text; otherwise the first member that
cannot be decoded, or that repeats a name, decides the failure.  What is loaded keeps the order of
the text, nodes are decoded as by themselves, a repeated name is reported as by the call that
declares, and calls that fail change nothing. -/
theorem load_agrees_with_declaring [YamlReader] {text : String}
    {members : List (String × Draft)} (hdoc : Draft.ofText text = .ofEntities members) :
    (∀ g, load .json text = .ok g ↔
      ∃ nodes, List.Forall₂ Decodes members nodes ∧ (declareAll nodes).run empty = .ok () g) ∧
    (∀ e, load .json text = .error e ↔ ∃ i c, e = .json c ∧ FirstDefect [] members i c) ∧
    (∀ g, load .json text = .ok g → g.names = members.map Prod.fst) ∧
    (∀ p ∈ members, p.2.nesting ≤ 125 →
      Decoder.node .entity p.2 = Decoder.node .document p.2) ∧
    (∀ name, (DecodeError.duplicateEntity name).message =
      DecodeError.withoutPlace (GraphError.duplicateEntity name).message) ∧
    ∀ (g : Graph) (calls : List Declaration), g.KeepsFirst calls := by
  have hload := load_ofEntities hdoc
  have hok (g : Graph) : load .json text = .ok g ↔
      ∃ nodes, List.Forall₂ Decodes members nodes ∧ (declareAll nodes).run empty = .ok () g := by
    rw [hload, ← readMembers_ok_iff]
    cases empty.readMembers members <;> simp [Except.mapError]
  refine ⟨hok, fun e => ?_, fun g hg => ?_, fun p _ hp => ?_, fun name => rfl, keepsFirst⟩
  · rw [hload]
    constructor
    · intro h
      cases hread : empty.readMembers members with
      | error c =>
        rw [hread] at h
        cases h
        obtain ⟨i, hi⟩ := readMembers_error_iff.mp hread
        exact ⟨i, c, rfl, hi⟩
      | ok g =>
        rw [hread] at h
        cases h
    · rintro ⟨i, c, rfl, hi⟩
      have hread : empty.readMembers members = .error c := readMembers_error_iff.mpr ⟨i, hi⟩
      rw [hread]
      rfl
  · obtain ⟨nodes, hnodes, hall⟩ := (hok g).mp hg
    rw [names_of_declareAll hall, map_fst_of_decodes hnodes]
    rfl
  · exact Decoder.node_eq_node rfl hp (Nat.le_trans hp (by decide))

/-- A user that is declared twice. -/
def userTwice : String :=
  "\x7b\"entities\":\x7b\"User\":\x7b\"kind\":\"Scalar\",\"name\":\"User\"\x7d," ++
    "\"User\":\x7b\"kind\":\"Scalar\",\"name\":\"User\",\"doc\":\"shadow\"\x7d\x7d\x7d"

def userTwiceMembers : List (String × Draft) :=
  let kind := (Draft.str (some "kind"), Draft.str (some "Scalar"))
  let name := (Draft.str (some "name"), Draft.str (some "User"))
  let doc := (Draft.str (some "doc"), Draft.str (some "shadow"))
  [("User", .obj [kind, name] true), ("User", .obj [kind, name, doc] true)]

set_option maxRecDepth 20000 in
theorem ofText_userTwice : Draft.ofText userTwice = .ofEntities userTwiceMembers := by
  rfl

theorem load_agrees_with_declaring_userTwice :
    Draft.ofText userTwice = .ofEntities userTwiceMembers ∧
      load .json userTwice = .error (.json (.duplicateEntity "User")) := by
  have hdoc := ofText_userTwice
  obtain ⟨-, herror, -⟩ := load_agrees_with_declaring hdoc
  refine ⟨hdoc, (herror _).mpr ⟨1, _, rfl, .repeated rfl rfl (by decide), ?_⟩⟩
  intro j hj e' hdefect
  obtain rfl : j = 0 := Nat.lt_one_iff.mp hj
  obtain h | ⟨n, -, hmem, -⟩ := defect_zero_iff.mp hdefect
  · cases h
  · cases hmem

end Graph

end EntityGraph
