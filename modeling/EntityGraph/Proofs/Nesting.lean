import EntityGraph.Document.Decode
import EntityGraph.Proofs.Decoded

/-!
# Decoding does not depend on the room around a value

How many brackets may still be opened is counted down on the way into a document.  A value whose
brackets all fit is decoded in the same way wherever it stands:

    d.nesting ≤ r.room → d.nesting ≤ r'.room → node r d = node r' d     (Decoder.node_eq_node)

Types are decoded with a depth that is taken from the room, so that different decoders have to be
compared: `decode.Alike bound decode'` says that two decoders agree on the drafts with at most
`bound` nested brackets.  There is one lemma for each way in which decoders are put together.
-/

namespace EntityGraph

/-! ## Algorithm -/

namespace Draft

mutual

/-- How many brackets are nested in one another. -/
def nesting : Draft → Nat
  | .arr items _ => nestingItems items + 1
  | .obj members _ => nestingMembers members + 1
  | _ => 0

def nestingItems : List Draft → Nat
  | [] => 0
  | d :: ds => max d.nesting (nestingItems ds)

def nestingMembers : List (Draft × Draft) → Nat
  | [] => 0
  | (key, d) :: rest => max (max key.nesting d.nesting) (nestingMembers rest)

end

end Draft

/-- Two places at which there is room for some nested brackets, no more than a bound. -/
structure Reading.Suits (bound : Nat) (r r' : Reading) (brackets : Nat) : Prop where
  held : r.held = r'.held
  le_bound : brackets ≤ bound
  le_room : brackets ≤ r.room
  le_room' : brackets ≤ r'.room

/-- Two decoders agree on all drafts with at most so many nested brackets, wherever these fit. -/
def Decoder.Alike {α : Type} (bound : Nat) (decode decode' : Decoder α) : Prop :=
  ∀ (r r' : Reading) (d : Draft), r.Suits bound r' d.nesting → decode r d = decode' r' d

/-- Two records have the same members, and agree on what can be decoded of them. -/
structure Record.Alike {α : Type} (bound : Nat) (record record' : Record α) : Prop where
  names : record.names = record'.names
  read : ∀ (ms : Members) (r' : Reading),
    (∀ p ∈ ms.entries, ms.reading.Suits bound r' p.2.nesting) →
    record.read ms = record'.read { ms with reading := r' }

/-! ## Lemmas -/

namespace Draft

theorem nestingItems_le_iff {ds : List Draft} {n : Nat} :
    nestingItems ds ≤ n ↔ ∀ d ∈ ds, d.nesting ≤ n := by
  induction ds with
  | nil => simp [nestingItems]
  | cons d ds ih => rw [nestingItems, Nat.max_le, ih, List.forall_mem_cons]

theorem nestingMembers_le_iff {ms : List (Draft × Draft)} {n : Nat} :
    nestingMembers ms ≤ n ↔ ∀ p ∈ ms, p.1.nesting ≤ n ∧ p.2.nesting ≤ n := by
  induction ms with
  | nil => simp [nestingMembers]
  | cons p ms ih => rw [nestingMembers, Nat.max_le, Nat.max_le, ih, List.forall_mem_cons]

mutual

theorem intact_congr : (d : Draft) → {room room' : Nat} → d.nesting ≤ room → d.nesting ≤ room' →
    d.intact room = d.intact room'
  | .arr items closed, room, room', h, h' => by
    rw [nesting] at h h'
    have hitems : intactItems (room - 1) items = intactItems (room' - 1) items :=
      intactItems_congr items (by omega) (by omega)
    have hroom : 0 < room := by omega
    have hroom' : 0 < room' := by omega
    rw [intact, intact, hitems, decide_eq_true hroom, decide_eq_true hroom']
  | .obj members closed, room, room', h, h' => by
    rw [nesting] at h h'
    have hmembers : intactMembers (room - 1) members = intactMembers (room' - 1) members :=
      intactMembers_congr members (by omega) (by omega)
    have hroom : 0 < room := by omega
    have hroom' : 0 < room' := by omega
    rw [intact, intact, hmembers, decide_eq_true hroom, decide_eq_true hroom']
  | .null, _, _, _, _ | .bool _, _, _, _, _ | .num _, _, _, _, _ | .minusZero, _, _, _, _
  | .str _, _, _, _, _ | .broken, _, _, _, _ => rfl

theorem intactItems_congr : (ds : List Draft) → {room room' : Nat} → nestingItems ds ≤ room →
    nestingItems ds ≤ room' → intactItems room ds = intactItems room' ds
  | [], _, _, _, _ => rfl
  | d :: ds, room, room', h, h' => by
    rw [nestingItems] at h h'
    rw [intactItems, intactItems, intact_congr d (by omega) (by omega : d.nesting ≤ room'),
      intactItems_congr ds (by omega) (by omega : nestingItems ds ≤ room')]

theorem intactMembers_congr : (ms : List (Draft × Draft)) → {room room' : Nat} →
    nestingMembers ms ≤ room → nestingMembers ms ≤ room' →
    intactMembers room ms = intactMembers room' ms
  | [], _, _, _, _ => rfl
  | (key, d) :: rest, room, room', h, h' => by
    rw [nestingMembers] at h h'
    rw [intactMembers, intactMembers,
      intact_congr key (by omega) (by omega : key.nesting ≤ room'),
      intact_congr d (by omega) (by omega : d.nesting ≤ room'),
      intactMembers_congr rest (by omega) (by omega : nestingMembers rest ≤ room')]

end

end Draft

namespace Reading.Suits

variable {bound : Nat} {r r' : Reading} {n m : Nat}

theorem mono (h : r.Suits bound r' n) (hle : m ≤ n) : r.Suits bound r' m :=
  ⟨h.held, Nat.le_trans hle h.le_bound, Nat.le_trans hle h.le_room, Nat.le_trans hle h.le_room'⟩

/-- Inside a bracket. -/
theorem enter (h : r.Suits bound r' (n + 1)) : r.enter.Suits (bound - 1) r'.enter n :=
  ⟨h.held, Nat.le_sub_one_of_lt h.le_bound, Nat.le_sub_one_of_lt h.le_room,
    Nat.le_sub_one_of_lt h.le_room'⟩

theorem room_ne_zero (h : r.Suits bound r' (n + 1)) : ¬ r.room = 0 ∧ ¬ r'.room = 0 :=
  ⟨Nat.ne_of_gt (Nat.zero_lt_of_lt h.le_room), Nat.ne_of_gt (Nat.zero_lt_of_lt h.le_room')⟩

theorem hold (h : r.Suits bound r' n) :
    Suits bound { r with held := true } { r' with held := true } n :=
  ⟨rfl, h.le_bound, h.le_room, h.le_room'⟩

theorem intact_eq {d : Draft} (h : r.Suits bound r' d.nesting) :
    d.intact r.room = d.intact r'.room :=
  d.intact_congr h.le_room h.le_room'

end Reading.Suits

/-- Two computations fail alike, or give related results. -/
inductive Except.Related {ε α β : Type} (R : α → β → Prop) : Except ε α → Except ε β → Prop where
  | error (e : ε) : Related R (.error e) (.error e)
  | ok {a : α} {b : β} (h : R a b) : Related R (.ok a) (.ok b)

theorem Except.Related.bind_eq {ε α β γ : Type} {R : α → β → Prop} {x : Except ε α}
    {y : Except ε β} (h : Related R x y) {f : α → Except ε γ} {g : β → Except ε γ}
    (hfg : ∀ a b, R a b → f a = g b) : (x >>= f) = (y >>= g) := by
  cases h with
  | error e => rfl
  | ok h => exact hfg _ _ h

theorem Except.Related.bind {ε α β γ δ : Type} {R : α → β → Prop} {S : γ → δ → Prop}
    {x : Except ε α} {y : Except ε β} (h : Related R x y) {f : α → Except ε γ} {g : β → Except ε δ}
    (hfg : ∀ a b, R a b → Related S (f a) (g b)) : Related S (x >>= f) (y >>= g) := by
  cases h with
  | error e => exact .error e
  | ok h => exact hfg _ _ h

theorem Except.mapM_congr {ε α β : Type} {f g : α → Except ε β} {l : List α}
    (h : ∀ a ∈ l, f a = g a) : l.mapM f = l.mapM g := by
  induction l with
  | nil => rfl
  | cons a l ih =>
    obtain ⟨ha, hl⟩ := List.forall_mem_cons.mp h
    rw [List.mapM_cons, List.mapM_cons, ha, ih hl]

namespace Decoder

variable {α β : Type} {bound : Nat} {decode decode' : Decoder α}

theorem Alike.mono {bound' : Nat} (h : decode.Alike bound decode') (hle : bound' ≤ bound) :
    decode.Alike bound' decode' := fun r r' d hd =>
  h r r' d ⟨hd.held, Nat.le_trans hd.le_bound hle, hd.le_room, hd.le_room'⟩

theorem alike_text : text.Alike bound text := fun _ _ _ _ => by
  unfold text
  split <;> rfl

theorem alike_flag : flag.Alike bound flag := fun _ _ _ _ => by
  unfold flag
  split <;> rfl

theorem alike_unsigned {bits : Nat} {expected : Expected} :
    (unsigned bits expected).Alike bound (unsigned bits expected) := fun r r' d _ => by
  unfold unsigned
  split <;> rfl

theorem alike_map (f : α → β) (h : decode.Alike bound decode') :
    Alike bound (fun r d => f <$> decode r d) (fun r d => f <$> decode' r d) := fun r r' d hd => by
  dsimp only
  rw [h r r' d hd]

theorem alike_id : id.Alike bound id := alike_map UInt32.ofNat alike_unsigned

theorem alike_index : index.Alike bound index := alike_map UInt64.ofNat alike_unsigned

theorem alike_orNull (h : decode.Alike bound decode') :
    (orNull decode).Alike bound (orNull decode') := fun r r' d hd => by
  unfold orNull
  split
  · rfl
  · rw [h r r' d hd]

theorem alike_free : free.Alike bound free := fun r r' d hd => by
  rw [free, free, hd.intact_eq]

theorem alike_sequence (h : decode.Alike (bound - 1) decode') :
    (sequence decode).Alike bound (sequence decode') := fun r r' d hd => by
  cases d with
  | arr items closed =>
    rw [Draft.nesting] at hd
    obtain ⟨hroom, hroom'⟩ := hd.room_ne_zero
    have hitems : items.mapM (decode r.enter) = items.mapM (decode' r'.enter) :=
      Except.mapM_congr fun d hmem =>
        h r.enter r'.enter d (hd.enter.mono (Draft.nestingItems_le_iff.mp (Nat.le_refl _) d hmem))
    rw [sequence, sequence, if_neg hroom, if_neg hroom', hitems]
  | _ => rfl

theorem membersInto_congr {insert : β → String → α → Except DecodeError β}
    (h : decode.Alike bound decode') {r r' : Reading} {members : List (Draft × Draft)}
    (hmembers : ∀ p ∈ members, r.Suits bound r' p.2.nesting) (acc : β) :
    membersInto decode insert r acc members = membersInto decode' insert r' acc members := by
  fun_induction membersInto decode insert r acc members with
  | case1 acc => rfl
  | case2 acc key d rest ih =>
    obtain ⟨hd, hrest⟩ := List.forall_mem_cons.mp hmembers
    rw [membersInto, h r r' d hd]
    simp only [ih _ hrest]
  | case3 acc p rest hkey =>
    rw [membersInto]
    exact hkey

theorem alike_gather {expected : Expected} {insert : β → String → α → Except DecodeError β}
    {start : β} (h : decode.Alike (bound - 1) decode') :
    (gather expected decode insert start).Alike bound (gather expected decode' insert start) :=
  fun r r' d hd => by
  cases d with
  | obj members closed =>
    rw [Draft.nesting] at hd
    obtain ⟨hroom, hroom'⟩ := hd.room_ne_zero
    have hmembers : ∀ p ∈ members, r.enter.Suits (bound - 1) r'.enter p.2.nesting := fun p hp =>
      hd.enter.mono (Draft.nestingMembers_le_iff.mp (Nat.le_refl _) p hp).2
    rw [gather, gather, if_neg hroom, if_neg hroom', membersInto_congr h hmembers]
  | _ => rfl

theorem alike_dict (h : decode.Alike (bound - 1) decode') :
    (dict decode).Alike bound (dict decode') := alike_gather h

end Decoder

/-! ### Records -/

namespace Record

variable {α β : Type} {bound : Nat} {name : String} {decode decode' : Decoder α}

theorem alike_member {absent : Members → Placed α} (h : decode.Alike bound decode')
    (habsent : ∀ ms r', absent ms = absent { ms with reading := r' }) :
    (member name decode absent).Alike bound (member name decode' absent) where
  names := rfl
  read ms r' hms := by
    cases hfind : Members.find? name ms.entries 0 with
    | some found =>
      obtain ⟨place, d⟩ := found
      obtain ⟨key, hmem⟩ := mem_of_find? hfind
      have hread : (member name decode' absent).read { ms with reading := r' } =
          (decode' r' d).mapError fun e => (place, e) := read_of_find? hfind
      rw [read_of_find? hfind, hread, h ms.reading r' d (hms _ hmem)]
    | none =>
      have hread : (member name decode' absent).read { ms with reading := r' } =
          absent { ms with reading := r' } := read_of_find?_eq_none hfind
      rw [read_of_find?_eq_none hfind, hread, habsent ms r']

theorem alike_required (h : decode.Alike bound decode') :
    (required name decode).Alike bound (required name decode') := alike_member h fun _ _ => rfl

theorem alike_optional {default : α} (h : decode.Alike bound decode') :
    (optional name decode default).Alike bound (optional name decode' default) :=
  alike_member h fun _ _ => rfl

theorem Alike.map (f : α → β) {record record' : Record α} (h : record.Alike bound record') :
    (f <$> record).Alike bound (f <$> record') where
  names := h.names
  read ms r' hms := congrArg (f <$> ·) (h.read ms r' hms)

theorem Alike.seq {f f' : Record (α → β)} {record record' : Record α} (hf : f.Alike bound f')
    (h : record.Alike bound record') : (f <*> record).Alike bound (f' <*> record') where
  names := congrArg₂ (· ++ ·) hf.names h.names
  read ms r' hms := congrArg₂ Placed.both (hf.read ms r' hms) (h.read ms r' hms)

/-- **Records** agree if they do one bracket further in. -/
theorem alike_decoder {record record' : Record α} (h : record.Alike (bound - 1) record') :
    (record.decoder name).Alike bound (record'.decoder name) := fun r r' d hd => by
  cases d with
  | obj members closed =>
    rw [Draft.nesting] at hd
    obtain ⟨hroom, hroom'⟩ := hd.room_ne_zero
    rw [decoder, decoder, if_neg hroom, if_neg hroom', h.names]
    refine congrArg (settle _) (h.read _ r'.enter fun p hp => ?_)
    obtain ⟨q, hq, rfl⟩ := List.mem_map.mp hp
    exact hd.enter.mono (Draft.nestingMembers_le_iff.mp (Nat.le_refl _) q hq).2
  | arr items closed =>
    rw [Draft.nesting] at hd
    obtain ⟨hroom, hroom'⟩ := hd.room_ne_zero
    rw [decoder, decoder, if_neg hroom, if_neg hroom', h.names, arrayFault, arrayFault, hd.held]
    refine congrArg (settle _) (h.read _ r'.enter fun p hp => ?_)
    exact hd.enter.mono (Draft.nestingItems_le_iff.mp (Nat.le_refl _) p.2 (List.of_mem_zip hp).2)
  | _ => rfl

end Record

/-! ### Tagged values -/

namespace Tagged

variable {α : Type} {bound : Nat} {name : String} {kinds kinds' : List (String × Decoder α)}

/-- Two lists of kinds with the same names, and decoders that agree. -/
def Alike (bound : Nat) (kinds kinds' : List (String × Decoder α)) : Prop :=
  List.Forall₂ (fun p p' => p.1 = p'.1 ∧ p.2.Alike bound p'.2) kinds kinds'

theorem related_find? (h : Alike bound kinds kinds') (kind : String) :
    Option.Rel (Decoder.Alike bound) (Assoc.find? kind kinds) (Assoc.find? kind kinds') := by
  induction h with
  | nil => exact .none
  | @cons p p' rest rest' hp hrest ih =>
    rw [Assoc.find?, Assoc.find?, hp.1]
    split
    · exact .some hp.2
    · exact ih

theorem related_getElem? (h : Alike bound kinds kinds') (n : Nat) :
    Option.Rel (fun p p' => p.2.Alike bound p'.2) kinds[n]? kinds'[n]? := by
  induction h generalizing n with
  | nil => exact .none
  | cons hp hrest ih =>
    cases n with
    | zero => exact .some hp.2
    | succ n => simpa using ih n

theorem Alike.keys (h : Alike bound kinds kinds') : Assoc.keys kinds = Assoc.keys kinds' := by
  induction h with
  | nil => rfl
  | cons hp hrest ih => rw [Assoc.keys_cons, Assoc.keys_cons, hp.1, ih]

theorem related_choose (h : Alike bound kinds kinds') {r r' : Reading} (hheld : r.held = r'.held)
    (d : Draft) : Except.Related (Decoder.Alike bound) (choose kinds r d) (choose kinds' r' d) := by
  unfold choose
  split
  · rename_i kind
    have hfind := related_find? h kind
    generalize Assoc.find? kind kinds = found at hfind ⊢
    generalize Assoc.find? kind kinds' = found' at hfind ⊢
    cases hfind with
    | none => exact h.keys ▸ .error _
    | some hdecode => exact .ok hdecode
  · rename_i n
    rw [hheld]
    split
    · have hget := related_getElem? h n.toNat
      generalize kinds[n.toNat]? = found at hget ⊢
      generalize kinds'[n.toNat]? = found' at hget ⊢
      cases hget with
      | none => exact h.length_eq ▸ .error _
      | some hdecode => exact .ok hdecode
    · exact .error _
  · unfold Decoder.mismatch
    split <;> exact .error _

theorem restOfMembers_congr {r r' : Reading} {members : List (Draft × Draft)}
    (h : ∀ p ∈ members, r.Suits bound r' p.1.nesting ∧ r.Suits bound r' p.2.nesting) :
    restOfMembers r members = restOfMembers r' members := by
  induction members with
  | nil => rfl
  | cons p rest ih =>
    obtain ⟨⟨hkey, hd⟩, hrest⟩ := List.forall_mem_cons.mp h
    rw [restOfMembers, restOfMembers, hkey.intact_eq, hd.intact_eq, ih hrest]

/-- The kind that two decoders have taken out of some members, and the others. -/
structure Split (bound : Nat) (members : List (Draft × Draft))
    (x y : Option (Decoder α) × List (Draft × Draft)) : Prop where
  kind : Option.Rel (Decoder.Alike bound) x.1 y.1
  others : x.2 = y.2
  subset : ∀ p ∈ x.2, p ∈ members

theorem related_splitMembers (h : Alike bound kinds kinds') {r r' : Reading}
    (hheld : r.held = r'.held) {members : List (Draft × Draft)} {bound' : Nat}
    (hmembers : ∀ p ∈ members, r.Suits bound' r' p.1.nesting ∧ r.Suits bound' r' p.2.nesting) :
    Except.Related (Split bound members) (splitMembers kinds r members)
      (splitMembers kinds' r' members) := by
  induction members with
  | nil => exact .ok ⟨.none, rfl, nofun⟩
  | cons p rest ih =>
    obtain ⟨⟨hkey, hd⟩, hrest⟩ := List.forall_mem_cons.mp hmembers
    rw [splitMembers, splitMembers]
    split
    · refine (related_choose h hheld p.2).bind fun decode decode' hdecode => ?_
      rw [restOfMembers_congr hrest]
      cases hothers : restOfMembers r' rest with
      | error e => exact .error e
      | ok others =>
        obtain rfl := mem_of_restOfMembers hothers
        exact .ok ⟨.some hdecode, rfl, fun q hq => List.mem_cons_of_mem p hq⟩
    · rw [hkey.intact_eq, hd.intact_eq]
      split
      · refine (ih hrest).bind fun x y hxy => .ok ⟨hxy.kind, congrArg (p :: ·) hxy.others, ?_⟩
        exact List.forall_mem_cons.mpr
          ⟨List.mem_cons_self, fun q hq => List.mem_cons_of_mem p (hxy.subset q hq)⟩
      · exact .error _

/-- **Tagged values** agree if the values of each kind do. -/
theorem alike_decoder (h : Alike bound kinds kinds') :
    (decoder name kinds).Alike bound (decoder name kinds') := fun r r' d hd => by
  cases d with
  | obj members closed =>
    rw [Draft.nesting] at hd
    obtain ⟨hroom, hroom'⟩ := hd.room_ne_zero
    have hmembers := Draft.nestingMembers_le_iff.mp (Nat.le_refl (Draft.nestingMembers members))
    have hsplit := related_splitMembers h hd.enter.held fun p hp =>
      ⟨hd.enter.mono (hmembers p hp).1, hd.enter.mono (hmembers p hp).2⟩
    rw [decoder, decoder, if_neg hroom, if_neg hroom']
    refine hsplit.bind_eq fun x y hxy => ?_
    obtain ⟨decode?, others⟩ := x
    obtain ⟨decode?', others'⟩ := y
    obtain ⟨hkind, rfl, hsubset⟩ := hxy
    cases closed with
    | false => rfl
    | true =>
      cases hkind with
      | none => rfl
      | some hdecode =>
        have hothers : Draft.nestingMembers others ≤ Draft.nestingMembers members :=
          Draft.nestingMembers_le_iff.mpr fun p hp => hmembers p (hsubset p hp)
        refine hdecode _ _ (.obj others true) (hd.hold.mono ?_)
        rw [Draft.nesting]
        exact Nat.succ_le_succ hothers
  | arr items closed =>
    rw [Draft.nesting] at hd
    obtain ⟨hroom, hroom'⟩ := hd.room_ne_zero
    simp only [decoder, if_neg hroom, if_neg hroom']
    cases items with
    | nil => rfl
    | cons d rest =>
      rw [Draft.nestingItems] at hd
      have hrest := Draft.nestingItems_le_iff.mp (Nat.le_refl (Draft.nestingItems rest))
      refine (related_choose h hd.enter.held d).bind_eq fun decode decode' hdecode => ?_
      have hintact :
          rest.all (Draft.intact r.enter.room) = rest.all (Draft.intact r'.enter.room) := by
        refine Bool.eq_iff_iff.mpr ?_
        rw [List.all_eq_true, List.all_eq_true]
        refine forall₂_congr fun d hd' => ?_
        rw [(hd.enter.mono (Nat.le_trans (hrest d hd') (Nat.le_max_right ..))).intact_eq]
      rw [hintact]
      split
      · refine hdecode _ _ (.arr rest true) (hd.hold.mono ?_)
        rw [Draft.nesting]
        exact Nat.succ_le_succ (Nat.le_max_right ..)
      · rfl
  | _ => rfl

end Tagged

/-! ### Types -/

namespace Decoder

open Record

variable {α : Type} {bound : Nat}

theorem alike_referenceWith {argument argument' : Decoder FieldType}
    (h : argument.Alike (bound - 1) argument') :
    (referenceWith argument).Alike bound (referenceWith argument') :=
  .seq (.seq (.map _ (alike_required alike_text))
    (alike_optional (alike_orNull (alike_sequence h)))) (alike_optional (alike_orNull alike_text))

theorem alike_listWith {list : FieldType → Hooks → α} {element element' : Decoder FieldType}
    (h : element.Alike (bound - 1) element') :
    (listWith list element).Alike bound (listWith list element') :=
  alike_decoder (.map _ (alike_required h))

/-- Any depth that is greater than the brackets around the parts of a type is as good as another. -/
theorem alike_fieldTypeWithin {depth depth' : Nat} (h : bound < depth) (h' : bound < depth') :
    (fieldTypeWithin depth).Alike bound (fieldTypeWithin depth') := by
  obtain ⟨k, rfl⟩ := Nat.exists_eq_add_one_of_ne_zero (Nat.ne_of_gt (Nat.zero_lt_of_lt h))
  obtain ⟨k', rfl⟩ := Nat.exists_eq_add_one_of_ne_zero (Nat.ne_of_gt (Nat.zero_lt_of_lt h'))
  induction bound generalizing k k' with
  | zero =>
    -- without a bracket no part is decoded
    intro r r' d hd
    have hzero := hd.le_bound
    cases d with
    | arr items closed => exact absurd hzero (Nat.not_succ_le_zero _)
    | obj members closed => exact absurd hzero (Nat.not_succ_le_zero _)
    | _ => rfl
  | succ bound ih =>
    have hk : k ≠ 0 := by omega
    have hk' : k' ≠ 0 := by omega
    obtain ⟨j, rfl⟩ := Nat.exists_eq_add_one_of_ne_zero hk
    obtain ⟨j', rfl⟩ := Nat.exists_eq_add_one_of_ne_zero hk'
    have hparts : (fieldTypeWithin (j + 1)).Alike bound (fieldTypeWithin (j' + 1)) := by
      apply ih <;> omega
    have harguments := hparts.mono (Nat.sub_le bound 1)
    exact Tagged.alike_decoder (.cons ⟨rfl, alike_listWith hparts⟩ (.cons
      ⟨rfl, alike_decoder (.map _ (alike_referenceWith harguments))⟩ .nil))

theorem alike_fieldType : fieldType.Alike bound fieldType := fun r r' d hd =>
  alike_fieldTypeWithin (Nat.lt_succ_of_le hd.le_room) (Nat.lt_succ_of_le hd.le_room') r r' d
    ⟨hd.held, Nat.le_refl _, hd.le_room, hd.le_room'⟩

theorem alike_reference : reference.Alike bound reference :=
  alike_decoder (alike_referenceWith alike_fieldType)

/-! ### Nodes -/

theorem alike_scalar : scalar.Alike bound scalar :=
  alike_decoder (.seq (.map _ (alike_required alike_text))
    (alike_optional (alike_orNull alike_text)))

theorem alike_enumMember : enumMember.Alike bound enumMember :=
  alike_decoder (.seq (.seq (.seq (.map _ (alike_required alike_text)) (alike_required alike_free))
    (alike_optional (alike_orNull alike_text))) (alike_optional alike_flag))

theorem alike_enumeration : enumeration.Alike bound enumeration :=
  alike_decoder (.seq (.seq (.map _ (alike_required alike_text))
    (alike_optional (alike_orNull alike_text))) (alike_required (alike_sequence alike_enumMember)))

theorem alike_union : union.Alike bound union :=
  alike_decoder (.seq (.seq (.map _ (alike_required alike_text))
    (alike_optional (alike_orNull alike_text))) (alike_required (alike_sequence alike_reference)))

theorem alike_inputVariant : inputVariant.Alike bound inputVariant :=
  alike_decoder (.seq (.seq (.seq (.seq (.seq (.seq (.seq (.map _ (alike_required alike_text))
    (alike_optional alike_id)) (alike_optional (alike_orNull alike_text)))
    (alike_optional alike_flag)) (alike_optional (alike_orNull alike_text)))
    (alike_required alike_fieldType)) (alike_optional (alike_orNull alike_free)))
    (alike_optional (alike_orNull alike_text)))

theorem alike_resolverMethod : resolverMethod.Alike bound resolverMethod :=
  alike_decoder (.seq (.map _ (alike_required alike_text)) (alike_required alike_text))

theorem alike_outputVariant : outputVariant.Alike bound outputVariant :=
  alike_decoder (.seq (.seq (.seq (.seq (.seq (.seq (.seq (.seq (.map _ (alike_required alike_text))
    (alike_optional alike_id)) (alike_optional (alike_orNull alike_text)))
    (alike_optional alike_flag)) (alike_optional (alike_orNull alike_text)))
    (alike_required alike_fieldType)) (alike_optional (alike_orNull alike_resolverMethod)))
    (alike_optional (alike_orNull alike_fieldType))) (alike_optional (alike_orNull alike_text)))

theorem alike_field : field.Alike bound field :=
  alike_decoder (.seq (.seq (.seq (.seq (.map _ (alike_required alike_text))
    (alike_required alike_index)) (alike_required alike_text))
    (alike_optional (alike_orNull alike_inputVariant)))
    (alike_optional (alike_orNull alike_outputVariant)))

theorem alike_visibleField : visibleField.Alike bound visibleField :=
  alike_decoder (.seq (.seq (.map _ (alike_optional (alike_orNull alike_text)))
    (alike_required alike_index)) (alike_optional alike_flag))

theorem alike_object : object.Alike bound object :=
  alike_decoder (.seq (.seq (.seq (.seq (.seq (.seq (.seq (.seq (.seq
    (.map _ (alike_required alike_text)) (alike_optional (alike_orNull alike_text)))
    (alike_optional alike_id)) (alike_optional alike_flag))
    (alike_optional (alike_orNull alike_text))) (alike_optional (alike_orNull alike_text)))
    (alike_optional (alike_orNull (alike_sequence alike_text))))
    (alike_optional (alike_orNull (alike_sequence alike_text))))
    (alike_optional (alike_dict alike_field))) (alike_optional (alike_dict alike_visibleField)))

theorem alike_node : node.Alike bound node := by
  refine Tagged.alike_decoder (.cons ⟨rfl, ?scalar⟩ (.cons ⟨rfl, ?enumeration⟩
    (.cons ⟨rfl, ?union⟩ (.cons ⟨rfl, ?object⟩ (.cons ⟨rfl, ?list⟩ (.cons ⟨rfl, ?reference⟩
      (.cons ⟨rfl, ?field⟩ .nil)))))))
  case scalar => exact alike_map _ alike_scalar
  case enumeration => exact alike_map _ alike_enumeration
  case union => exact alike_map _ alike_union
  case object => exact alike_map _ alike_object
  case list => exact alike_listWith alike_fieldType
  case reference => exact alike_map _ alike_reference
  case field => exact alike_map _ alike_field

/-- **A node** is decoded in the same way wherever its brackets fit. -/
theorem node_eq_node {r r' : Reading} {d : Draft} (hheld : r.held = r'.held)
    (hr : d.nesting ≤ r.room) (hr' : d.nesting ≤ r'.room) : node r d = node r' d :=
  alike_node r r' d ⟨hheld, Nat.le_refl _, hr, hr'⟩

end Decoder

end EntityGraph
