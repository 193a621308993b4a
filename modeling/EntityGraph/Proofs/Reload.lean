import EntityGraph.Proofs.Decoded
import EntityGraph.Proofs.RoundTrip

/-!
# Loading inverts rendering

A graph or a schema that is plain is read from its text as it was.  A graph that has been loaded is
plain if all numbers of its text are integers, and no deeper than a text may be:

    (Token.ofText text).all (·.integer) → Graph.load .json text = .ok g →
      g.plain ∧ (Encode.graph g).depth ≤ 127                                 (fits_graph)

So it can be written and loaded again (`load_render_of_load`).  As with what decoders take, there is
one lemma for each decoder, and each follows the members of a record in order of declaration.

What has been read can be deeper than what it was read from, because a dictionary that was left out
is written.  In a graph that makes four brackets at most, inside one another.
-/

namespace EntityGraph

/-! ## Algorithm -/

/-- What can be said in a document, with so many brackets inside one another. -/
def Fits {α : Type} (plain : α → Bool) (encode : α → Json) (room : Nat) (a : α) : Prop :=
  plain a = true ∧ (encode a).depth ≤ room

/-! ## Lemmas -/

namespace Fits

variable {α β : Type} {plain : α → Bool} {encode : α → Json} {room room' : Nat} {a : α}

theorem le (h : Fits plain encode room a) (hle : room ≤ room') : Fits plain encode room' a :=
  ⟨h.1, Nat.le_trans h.2 hle⟩

/-- A kind needs no brackets. -/
theorem tagged {kind : String} {members : α → List (String × Json)} {plain' : β → Bool}
    {encode' : β → Json} {b : β} (h : Fits plain (fun a => .obj (members a)) room a)
    (hle : room ≤ room') (hplain : plain' b = plain a)
    (hencode : encode' b = Encode.tagged kind (members a)) :
    Fits plain' encode' room' b := by
  refine ⟨hplain.trans h.1, ?_⟩
  rw [hencode, Encode.depth_tagged]
  exact Nat.le_trans h.2 hle

end Fits

theorem Reference.hookFree_of_args {r : Reference}
    (h : r.args.all (fun args => args.all (·.hookFree)) = true) : r.hookFree = true := by
  obtain ⟨name, args, fileName⟩ := r
  cases args with
  | none => rfl
  | some args => exact FieldType.hookFreeAll_iff.mpr (List.all_eq_true.mp h)

namespace Decoder

variable {α : Type} {decode : Decoder α} {plain : α → Bool} {encode : α → Json}

theorem fits_orNull (h : decode.Yields (Fits plain encode)) :
    (orNull decode).Yields (Fits (·.all plain) (Encode.orNull encode)) := by
  refine (yields_orNull h).mono fun room x hx => ?_
  cases x with
  | none => exact ⟨rfl, Nat.zero_le _⟩
  | some a => exact hx a rfl

/-- A member that may be null and may be left out. -/
theorem fits_optional {name : String} (h : decode.Yields (Fits plain encode)) :
    (Record.optional name (orNull decode) none).Yields
      (Fits (·.all plain) (Encode.orNull encode)) :=
  Record.yields_optional (fits_orNull h) fun _ => ⟨rfl, Nat.zero_le _⟩

theorem fits_default : freeOrNull.Yields (Fits (·.all (·.isDefault)) (·.getD .null)) := by
  refine yields_freeOrNull.mono fun room x hx => ?_
  cases x with
  | none => exact ⟨rfl, Nat.zero_le _⟩
  | some v =>
    obtain ⟨hv, hdepth⟩ := hx v rfl
    exact ⟨Json.isDefault_iff.mpr hv, hdepth⟩

theorem fits_sequence (h : decode.Yields (Fits plain encode)) :
    (sequence decode).Yields (Fits (·.all plain) fun l => .arr (l.map encode)) := by
  refine (yields_sequence h).mono fun room l hl => ?_
  obtain ⟨hroom, hl⟩ := hl
  have hitems : Json.depthItems (l.map encode) ≤ room - 1 :=
    Json.depthItems_le_iff.mpr (List.forall_mem_map.mpr fun a ha => (hl a ha).2)
  refine ⟨List.all_eq_true.mpr fun a ha => (hl a ha).1, ?_⟩
  rw [Json.depth]
  omega

theorem fits_dict (h : decode.Yields (Fits plain encode)) :
    (dict decode).Yields (Fits (·.entries.all fun p => plain p.2) (Encode.dict encode)) := by
  refine (yields_dict h).mono fun room d hd => ?_
  obtain ⟨hroom, hd⟩ := hd
  refine ⟨List.all_eq_true.mpr fun p hp => (hd p hp).1, ?_⟩
  obtain ⟨room, rfl⟩ := Nat.exists_eq_add_one_of_ne_zero (Nat.ne_of_gt hroom)
  exact Encode.depth_obj_le.mpr (List.forall_mem_map.mpr fun p hp => (hd p hp).2)

open Record

/-! ### Types -/

theorem fits_referenceWith {argument : Decoder FieldType}
    (h : argument.Yields (Fits (·.hookFree) Encode.fieldType)) :
    (referenceWith argument).Yields fun room r =>
      r.hookFree = true ∧ ∀ p ∈ Encode.referenceMembers r, p.2.depth ≤ room := by
  refine .seq (.seq (.map yields_any ?_) (fits_optional (fits_sequence h))) yields_any
  rintro room name - args ⟨hargs, hdepth⟩ fileName -
  refine ⟨Reference.hookFree_of_args hargs, ?_⟩
  simpa [Encode.referenceMembers, Encode.fieldTypes_eq, Json.depth] using hdepth

theorem fits_listWith {list : FieldType → Hooks → α} {element : Decoder FieldType}
    {P : Nat → α → Prop} (h : element.Yields (Fits (·.hookFree) Encode.fieldType))
    (hlist : ∀ room ty, Fits (·.hookFree) Encode.fieldType room ty → P (room + 1) (list ty .none)) :
    (listWith list element).Yields P :=
  yields_decoder (.map (yields_required h) hlist)

theorem fits_fieldTypeWithin (depth : Nat) :
    (fieldTypeWithin depth).Yields (Fits (·.hookFree) Encode.fieldType) := by
  induction depth with
  | zero => exact nofun
  | succ depth ih =>
    refine Tagged.yields_decoder ?_
    simp only [List.forall_mem_cons]
    refine ⟨fits_listWith ih fun room ty h => ?_, yields_decoder (.map (fits_referenceWith ih) ?_),
      nofun⟩
    · refine ⟨FieldType.hookFree_list_iff.mpr ⟨rfl, h.1⟩, ?_⟩
      rw [Encode.depth_list]
      exact Nat.succ_le_succ h.2
    · rintro room r ⟨hfree, hdepth⟩
      refine ⟨hfree, ?_⟩
      rw [Encode.fieldType_toType, Encode.depth_tagged]
      exact Encode.depth_obj_le.mpr hdepth

theorem fits_fieldType : fieldType.Yields (Fits (·.hookFree) Encode.fieldType) :=
  fun r => fits_fieldTypeWithin (r.room + 1) r

theorem fits_reference :
    reference.Yields (Fits (·.hookFree) Encode.reference) := by
  refine yields_decoder ?_
  intro ms r hms hr
  obtain ⟨hfree, hdepth⟩ := fits_referenceWith fits_fieldType ms r hms hr
  exact ⟨hfree, Encode.depth_obj_le.mpr hdepth⟩

/-! ### Records -/

theorem fits_scalar :
    scalar.Yields (Fits (fun _ => true) fun s => .obj (Encode.scalarMembers s)) := by
  refine yields_decoder (.seq (.map yields_any ?_) yields_any)
  rintro room name - doc -
  refine ⟨rfl, Encode.depth_obj_le.mpr ?_⟩
  simp [Encode.scalarMembers]

theorem fits_enumMember : enumMember.Yields (Fits (·.plain) Encode.enumMember) := by
  refine yields_decoder
    (.seq (.seq (.seq (.map yields_any ?_) (yields_required yields_free)) yields_any) yields_any)
  rintro room name - value ⟨hexact, hdepth⟩ doc - deprecated -
  refine ⟨hexact, Encode.depth_obj_le.mpr ?_⟩
  simp [hdepth]

theorem fits_enumeration :
    enumeration.Yields (Fits (·.plain) fun e => .obj (Encode.enumerationMembers e)) := by
  refine yields_decoder (.seq (.seq (.map yields_any ?_) yields_any)
    (yields_required (fits_sequence fits_enumMember)))
  rintro room name - doc - members ⟨hplain, hdepth⟩
  refine ⟨hplain, Encode.depth_obj_le.mpr ?_⟩
  simp [Encode.enumerationMembers, hdepth]

theorem fits_union : union.Yields (Fits (·.plain) fun u => .obj (Encode.unionMembers u)) := by
  refine yields_decoder (.seq (.seq (.map yields_any ?_) yields_any)
    (yields_required (fits_sequence fits_reference)))
  rintro room name - doc - types ⟨hplain, hdepth⟩
  refine ⟨hplain, Encode.depth_obj_le.mpr ?_⟩
  simpa [Encode.unionMembers] using hdepth

theorem fits_inputVariant : inputVariant.Yields (Fits (·.plain) Encode.inputVariant) := by
  refine yields_decoder (.seq (.seq (.seq (.seq (.seq (.seq (.seq (.map yields_any ?_) yields_any)
    yields_any) yields_any) yields_any) (yields_required fits_fieldType))
    (yields_optional fits_default fun room => ⟨rfl, Nat.zero_le _⟩)) yields_any)
  rintro room name - n - aliasName - deprecated - doc - type ⟨hfree, htype⟩ defaultValue
    ⟨hdefault, hvalue⟩ fileName -
  refine ⟨Bool.and_eq_true_iff.mpr ⟨hfree, hdefault⟩, Encode.depth_obj_le.mpr ?_⟩
  simp [htype, hvalue]

theorem fits_resolverMethod :
    resolverMethod.Yields (Fits (fun _ => true) Encode.resolverMethod) := by
  refine yields_decoder (.seq (.map yields_any ?_) yields_any)
  rintro room owner - method -
  refine ⟨rfl, Encode.depth_obj_le.mpr ?_⟩
  simp

theorem fits_outputVariant : outputVariant.Yields (Fits (·.hookFree) Encode.outputVariant) := by
  refine yields_decoder (.seq (.seq (.seq (.seq (.seq (.seq (.seq (.seq (.map yields_any ?_)
    yields_any) yields_any) yields_any) yields_any) (yields_required fits_fieldType))
    (fits_optional fits_resolverMethod)) (fits_optional fits_fieldType)) yields_any)
  rintro room name - n - aliasName - deprecated - doc - type ⟨hfree, htype⟩ method ⟨-, hmethod⟩
    param ⟨hparam, hdepth⟩ fileName -
  refine ⟨Bool.and_eq_true_iff.mpr ⟨hfree, hparam⟩, Encode.depth_obj_le.mpr ?_⟩
  simp [htype, hmethod, hdepth]

theorem fits_field : field.Yields (Fits (·.plain) Encode.field) := by
  refine yields_decoder (.seq (.seq (.seq (.seq (.map yields_any ?_) yields_any) yields_any)
    (fits_optional fits_inputVariant)) (fits_optional fits_outputVariant))
  rintro room name - n - owner - input ⟨hinput, hdepth⟩ output ⟨houtput, hdepth'⟩
  refine ⟨Bool.and_eq_true_iff.mpr ⟨hinput, houtput⟩, Encode.depth_obj_le.mpr ?_⟩
  simp [Encode.fieldMembers, hdepth, hdepth']

theorem fits_visibleField :
    visibleField.Yields (Fits (fun _ => true) Encode.visibleField) := by
  refine yields_decoder (.seq (.seq (.map yields_any ?_) yields_any) yields_any)
  rintro room origin - n - optional -
  refine ⟨rfl, Encode.depth_obj_le.mpr ?_⟩
  simp

theorem fits_texts : (sequence text).Yields (Fits (fun _ => true) Encode.texts) := by
  have htext : text.Yields (Fits (fun _ => true) .str) :=
    fun _ _ _ _ _ => ⟨rfl, Nat.zero_le _⟩
  exact (fits_sequence htext).mono fun _ _ h => ⟨rfl, h.2⟩

/-- Brackets are written for a dictionary that is left out. -/
theorem fits_dict_or_empty {name : String} (h : decode.Yields (Fits plain encode)) :
    (optional name (dict decode) .empty).Yields fun room =>
      Fits (·.entries.all fun p => plain p.2) (Encode.dict encode) (max room 1) :=
  yields_optional ((fits_dict h).mono fun _ _ hd => hd.le (Nat.le_max_left ..))
    fun _ => ⟨rfl, Nat.le_max_right ..⟩

theorem fits_object :
    object.Yields fun room => Fits (·.plain) Encode.object (max room 2) := by
  refine yields_decoder (.seq (.seq (.seq (.seq (.seq (.seq (.seq (.seq (.seq (.map yields_any ?_)
    yields_any) yields_any) yields_any) yields_any) yields_any)
    (fits_optional fits_texts)) (fits_optional fits_texts)) (fits_dict_or_empty fits_field))
    (fits_dict_or_empty fits_visibleField))
  rintro room name - registered - n - deprecated - doc - fileName - inherit ⟨-, hinherit⟩ generics
    ⟨-, hgenerics⟩ fields ⟨hplain, hfields⟩ visible ⟨-, hvisible⟩
  have hroom : max (room + 1) 2 = max room 1 + 1 := by omega
  refine ⟨hplain, hroom ▸ Encode.depth_obj_le.mpr ?_⟩
  have hle : room ≤ max room 1 := Nat.le_max_left ..
  have hinherit := Nat.le_trans hinherit hle
  have hgenerics := Nat.le_trans hgenerics hle
  generalize max room 1 = inside at *
  simp [Encode.objectMembers, hinherit, hgenerics, hfields, hvisible]

/-! ### Nodes and graphs -/

theorem fits_node : node.Yields fun room => Fits (·.plain) Encode.node (max room 2) := by
  refine Tagged.yields_decoder ?_
  simp only [List.forall_mem_cons]
  have hroom (room : Nat) : room ≤ max room 2 := Nat.le_max_left ..
  refine ⟨?scalar, ?enumeration, ?union, ?object, ?list, ?reference, ?field, nofun⟩
  case scalar => exact yields_map (fits_scalar.mono fun room s h => h.tagged (hroom room) rfl rfl)
  case enumeration =>
    exact yields_map (fits_enumeration.mono fun room e h => h.tagged (hroom room) rfl rfl)
  case union => exact yields_map (fits_union.mono fun room u h => h.tagged (hroom room) rfl rfl)
  case object =>
    exact yields_map (fits_object.mono fun room o h => h.tagged (Nat.le_refl _) rfl rfl)
  case list =>
    refine fits_listWith fits_fieldType fun room ty h => ⟨h.1, ?_⟩
    show (Encode.fieldType (.list ty .none)).depth ≤ _
    rw [Encode.depth_list]
    exact Nat.le_trans (Nat.succ_le_succ h.2) (hroom _)
  case reference =>
    exact yields_map (fits_reference.mono fun room r h => h.tagged (hroom room) rfl rfl)
  case field => exact yields_map (fits_field.mono fun room f h => h.tagged (hroom room) rfl rfl)

theorem entries_of_declare {acc g : Graph} {name : String} {n : Node}
    (h : declare acc name n = .ok g) : g.entities = acc.entities.insert name n := by
  rw [declare, Graph.insert_eq] at h
  split_ifs at h <;> cases h
  rfl

theorem fits_entities :
    entities.Yields fun room => Fits (·.plain) (fun g => Encode.dict Encode.node g.entities)
      (max room 3) := by
  have hdeclare (room : Nat) (acc : Graph) (name : String) (n : Node) (g : Graph)
      (hacc : ∀ p ∈ acc.entities.entries, Fits (·.plain) Encode.node (max room 2) p.2)
      (hn : Fits (·.plain) Encode.node (max room 2) n) (h : declare acc name n = .ok g) :
      ∀ p ∈ g.entities.entries, Fits (·.plain) Encode.node (max room 2) p.2 := by
    rw [entries_of_declare h]
    intro p hp
    rcases Assoc.mem_insert acc.entities.nodup hp with rfl | ⟨hp, -⟩
    · exact hn
    · exact hacc p hp
  have hstart (room : Nat) : ∀ p ∈ Graph.empty.entities.entries,
      Fits (·.plain) Encode.node (max room 2) p.2 := fun _ hp => absurd hp List.not_mem_nil
  refine (yields_gather fits_node hstart hdeclare).mono fun room g hg => ?_
  obtain ⟨hpos, hg⟩ := hg
  have hroom : max room 3 = max (room - 1) 2 + 1 := by omega
  refine ⟨List.all_eq_true.mpr fun p hp => (hg p hp).1, ?_⟩
  rw [hroom]
  exact Encode.depth_obj_le.mpr (List.forall_mem_map.mpr fun p hp => (hg p hp).2)

theorem fits_graph : graph.Yields fun room => Fits (·.plain) Encode.graph (max room 4) := by
  refine yields_decoder (yields_optional (fits_entities.mono fun room g hg => ⟨hg.1, ?_⟩)
    fun room => ⟨rfl, ?_⟩)
  · have hroom : max (room + 1) 4 = max room 3 + 1 := by omega
    rw [hroom]
    refine Encode.depth_obj_le.mpr ?_
    simpa using hg.2
  · have hempty : (Encode.graph .empty).depth = 2 := rfl
    rw [hempty]
    omega

/-! ### Texts -/

/-- What is read of a text with integers only. -/
theorem Yields.of_read {P : Nat → α → Prop} (h : decode.Yields P) {text : String} {a : α}
    (hinteger : (Token.ofText text).all (·.integer) = true) (hread : decode.read text = .ok a) :
    P 127 a := by
  unfold read at hread
  obtain ⟨b, hb, hrest⟩ := Except.bind_eq_ok_iff.mp hread
  split_ifs at hrest
  cases hrest
  exact h .document _ a (Draft.whole_ofText hinteger) hb

end Decoder

namespace Graph

theorem load_json_iff [YamlReader] {text : String} {g : Graph} :
    Graph.load .json text = .ok g ↔ Decoder.graph.read text = .ok g := by
  unfold Graph.load
  cases Decoder.graph.read text <;> simp [Except.mapError]

/-- **What has been loaded** can be written and loaded again. -/
theorem load_render_of_load [YamlReader] {text : String} {g : Graph}
    (hinteger : (Token.ofText text).all (·.integer) = true) (h : Graph.load .json text = .ok g)
    (pretty : Bool) : Graph.load .json (Command.render pretty (Encode.graph g)) = .ok g := by
  obtain ⟨hplain, hdepth⟩ := Decoder.fits_graph.of_read hinteger (load_json_iff.mp h)
  exact load_json_iff.mpr ((Decoder.takes_graph hplain).read_render hdepth pretty)

end Graph

/-- **Loading inverts rendering.**  What is plain and not nested too deep is read from its text as
it was, in either layout.  A graph that comes from a text in which all numbers are integers is of
this kind. -/
theorem loading_inverts_rendering [YamlReader] (pretty : Bool) :
    (∀ g : Graph, g.plain = true → (Encode.graph g).depth ≤ 127 →
      Decoder.graph.read (Command.render pretty (Encode.graph g)) = .ok g) ∧
    (∀ s : InputSchema, s.plain InputField.plain = true → (Encode.inputSchema s).depth ≤ 127 →
      Decoder.inputSchema.read (Command.render pretty (Encode.inputSchema s)) = .ok s) ∧
    (∀ s : OutputSchema, s.plain OutputField.plain = true → (Encode.outputSchema s).depth ≤ 127 →
      Decoder.outputSchema.read (Command.render pretty (Encode.outputSchema s)) = .ok s) ∧
    ∀ (text : String) (g : Graph), (Token.ofText text).all (·.integer) = true →
      Graph.load .json text = .ok g →
      Graph.load .json (Command.render pretty (Encode.graph g)) = .ok g := by
  refine ⟨fun g hg hdepth => ?_, fun s hs hdepth => ?_, fun s hs hdepth => ?_,
    fun text g hinteger h => Graph.load_render_of_load hinteger h pretty⟩
  · exact (Decoder.takes_graph hg).read_render hdepth pretty
  · exact (Decoder.takes_inputSchema hs).read_render hdepth pretty
  · exact (Decoder.takes_outputSchema hs).read_render hdepth pretty

/-! Sizes in a document that leaves out what it can, has a member as a sequence and the kind behind
the name; and what an order with a size has in a graph and in schemas. -/

def sizeText : String :=
  "\x7b\"entities\":\x7b\"Size\":\x7b\"name\":\"Size\",\"kind\":\"Enum\"," ++
    "\"members\":[[\"S\",-1]]\x7d\x7d\x7d"

def sizeGraph : Graph :=
  ⟨.ofList [("Size", .enumeration ⟨"Size", none, [⟨"S", .num (.int (-1)), none, false⟩]⟩)]⟩

def orderGraph : Graph :=
  let input : InputVariant :=
    ⟨"size", 0, none, false, none, .named "Size" none, some (.num (.int (-1))), none, .none⟩
  let output : OutputVariant := .ofType "sizes" (.list (.named "Size" none) .none)
  ⟨.ofList [("Order", .object ((Object.named "Order").withField
    ⟨"size", 0, "Order", some input, some output⟩ false))]⟩

def orderInput : InputSchema := .ofList [("Order", .object ⟨"Order", "Order", 0, false, none,
  [⟨"size", "size", none, 0, false, true, none, some (.num (.int (-1))), .named "Size" none,
    .none⟩]⟩)]

def orderOutput : OutputSchema := .ofList [("Order", .object ⟨"Order", "Order", 0, false, none,
  [⟨"sizes", "size", none, 0, false, true, none, none, none, .list (.named "Size" none) .none,
    .none⟩]⟩)]

set_option maxRecDepth 20000 in
theorem ofText_sizeText : Token.ofText sizeText = [.openObject, .str (some "entities"), .colon,
    .openObject, .str (some "Size"), .colon, .openObject, .str (some "name"), .colon,
    .str (some "Size"), .comma, .str (some "kind"), .colon, .str (some "Enum"), .comma,
    .str (some "members"), .colon, .openArray, .openArray, .str (some "S"), .comma,
    .num (some (.int (-1))), .closeArray, .closeArray, .closeObject, .closeObject,
    .closeObject] := by
  rfl

theorem load_sizeText : Graph.load .json sizeText = .ok sizeGraph := by
  rw [Graph.load_json_iff, Decoder.read, Draft.ofText, ofText_sizeText]
  rfl

theorem loading_inverts_rendering_size :
    (orderGraph.plain = true ∧ Decoder.graph.read (Command.render true (Encode.graph orderGraph)) =
      .ok orderGraph) ∧
    Decoder.inputSchema.read (Command.render true (Encode.inputSchema orderInput)) =
      .ok orderInput ∧
    Decoder.outputSchema.read (Command.render true (Encode.outputSchema orderOutput)) =
      .ok orderOutput ∧
    Graph.load .json sizeText = .ok sizeGraph ∧
    Graph.load .json (Command.render true (Encode.graph sizeGraph)) = .ok sizeGraph := by
  obtain ⟨hgraph, hinput, houtput, hload⟩ := loading_inverts_rendering true
  refine ⟨⟨rfl, hgraph _ rfl (by decide)⟩, hinput _ rfl (by decide), houtput _ rfl (by decide),
    load_sizeText, hload sizeText _ ?_ load_sizeText⟩
  rw [ofText_sizeText]
  rfl

end EntityGraph
