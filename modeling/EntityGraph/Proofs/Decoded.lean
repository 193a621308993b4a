import EntityGraph.Proofs.Decoding
import EntityGraph.Proofs.WholeDrafts

/-!
# What decoders give

`decode.Yields P` says that `P room a` holds of every value `a` that a decoder makes of a draft with
whole numbers only, where `room` is how many brackets may be nested there.  As with what decoders
take, there is one lemma for each way in which they are put together:

    free values               exact, and no deeper than the room           (yields_free)
    sequences, dictionaries   what holds one bracket further in            (yields_sequence, …)
    records                   what holds of the members, together          (Record.yields_decoder)
    tagged values             what holds of each kind                      (Tagged.yields_decoder)

A property of records is carried from the last member to the first: with `f <*> a` in view, all that
is asked of `f` is that the property holds of what `f` makes of any `a` that can be read.
-/

namespace EntityGraph

/-! ## Algorithm -/

/-- What is decoded has a property, which may depend on the room there is for brackets. -/
def Decoder.Yields {α : Type} (decode : Decoder α) (P : Nat → α → Prop) : Prop :=
  ∀ (r : Reading) (d : Draft) (a : α), d.whole = true → decode r d = .ok a → P r.room a

/-- What a record reads has a property, which may depend on the room inside its brackets. -/
def Record.Yields {α : Type} (record : Record α) (P : Nat → α → Prop) : Prop :=
  ∀ (ms : Members) (a : α), (∀ p ∈ ms.entries, p.2.whole = true) → record.read ms = .ok a →
    P ms.reading.room a

/-! ## Lemmas -/

theorem Except.map_eq_ok_iff {ε α β : Type} {f : α → β} {x : Except ε α} {b : β} :
    f <$> x = .ok b ↔ ∃ a, x = .ok a ∧ f a = b := by
  cases x with
  | error e => simp [Functor.map, Except.map]
  | ok a => simp [Functor.map, Except.map]

/-- Each result of a traversal that succeeds comes from an item. -/
theorem Except.exists_of_mem_mapM {ε α β : Type} {f : α → Except ε β} {l : List α} {out : List β}
    (h : l.mapM f = .ok out) {b : β} (hb : b ∈ out) : ∃ a ∈ l, f a = .ok b := by
  induction l generalizing out with
  | nil =>
    cases h
    cases hb
  | cons a l ih =>
    rw [List.mapM_cons] at h
    obtain ⟨c, hc, hrest⟩ := Except.bind_eq_ok_iff.mp h
    obtain ⟨cs, hcs, hout⟩ := Except.bind_eq_ok_iff.mp hrest
    cases hout
    rcases List.mem_cons.mp hb with rfl | hb
    · exact ⟨a, List.mem_cons_self, hc⟩
    · obtain ⟨x, hx, hfx⟩ := ih hcs hb
      exact ⟨x, List.mem_cons_of_mem _ hx, hfx⟩

namespace Decoder

variable {α β : Type} {decode : Decoder α} {P Q : Nat → α → Prop}

theorem mismatch_ne_ok {expected : Expected} {d : Draft} {a : α} : mismatch expected d ≠ .ok a := by
  unfold mismatch
  split <;> exact nofun

theorem Yields.mono (h : decode.Yields P) (himp : ∀ room a, P room a → Q room a) :
    decode.Yields Q := fun r d a hd ha => himp r.room a (h r d a hd ha)

theorem yields_map {f : α → β} {R : Nat → β → Prop}
    (h : decode.Yields fun room a => R room (f a)) :
    Decoder.Yields (fun r d => f <$> decode r d) R := by
  intro r d b hd hb
  obtain ⟨a, ha, rfl⟩ := Except.map_eq_ok_iff.mp hb
  exact h r d a hd ha

theorem yields_orNull (h : decode.Yields P) :
    (orNull decode).Yields fun room x => ∀ a, x = some a → P room a := by
  intro r d x hd hx a ha
  subst ha
  unfold orNull at hx
  split at hx
  · cases hx
  · obtain ⟨b, hb, heq⟩ := Except.map_eq_ok_iff.mp hx
    cases heq
    exact h r d a hd hb

/-! ### Free values -/

theorem value?_of_free {r : Reading} {d : Draft} {v : Json} (h : free r d = .ok v) :
    d.intact r.room = true ∧ d.value? = some v := by
  unfold free at h
  split_ifs at h with hintact
  split at h
  · rename_i hvalue
    cases h
    exact ⟨hintact, hvalue⟩
  · cases h

theorem yields_free : free.Yields fun room v => v.exact = true ∧ v.depth ≤ room := by
  intro r d v hd h
  obtain ⟨hintact, hvalue⟩ := value?_of_free h
  obtain ⟨hexact, hdepth⟩ := Draft.exact_of_value? hd hintact hvalue
  exact ⟨Bool.and_eq_true_iff.mpr hexact, hdepth⟩

theorem yields_freeOrNull : freeOrNull.Yields fun room x =>
    ∀ v, x = some v → (v ≠ .null ∧ v.exact = true) ∧ v.depth ≤ room := by
  intro r d x hd hx v hv
  subst hv
  unfold freeOrNull orNull at hx
  split at hx
  · cases hx
  · rename_i hne
    obtain ⟨w, hw, heq⟩ := Except.map_eq_ok_iff.mp hx
    cases heq
    obtain ⟨hexact, hdepth⟩ := yields_free r d v hd hw
    refine ⟨⟨fun hnull => ?_, hexact⟩, hdepth⟩
    rw [hnull] at hw
    exact hne (Draft.eq_null_of_value? hd (value?_of_free hw).2)

/-! ### Sequences and dictionaries -/

theorem yields_sequence (h : decode.Yields P) :
    (sequence decode).Yields fun room l => 0 < room ∧ ∀ a ∈ l, P (room - 1) a := by
  intro r d l hd hl
  unfold sequence at hl
  split at hl
  · rename_i items closed
    by_cases hroom : r.room = 0
    · rw [if_pos hroom] at hl
      cases hl
    rw [if_neg hroom] at hl
    obtain ⟨values, hvalues, hclosed⟩ := Except.bind_eq_ok_iff.mp hl
    split_ifs at hclosed
    cases hclosed
    refine ⟨Nat.pos_of_ne_zero hroom, fun a ha => ?_⟩
    obtain ⟨item, hitem, hdecode⟩ := Except.exists_of_mem_mapM hvalues ha
    exact h r.enter item a (Draft.wholeItems_iff.mp hd item hitem) hdecode
  · exact absurd hl mismatch_ne_ok

/-- What each member keeps holds of all members together. -/
theorem membersInto_yields {insert : β → String → α → Except DecodeError β} {r : Reading}
    {I : β → Prop} (h : decode.Yields P)
    (hinsert : ∀ acc key a acc', I acc → P r.room a → insert acc key a = .ok acc' → I acc')
    {members : List (Draft × Draft)} (hmembers : ∀ p ∈ members, p.2.whole = true) {acc out : β}
    (hacc : I acc) (hout : membersInto decode insert r acc members = .ok out) : I out := by
  fun_induction membersInto decode insert r acc members with
  | case1 acc =>
    cases hout
    exact hacc
  | case2 acc key d rest ih =>
    obtain ⟨hd, hrest⟩ := List.forall_mem_cons.mp hmembers
    obtain ⟨a, ha, hout⟩ := Except.bind_eq_ok_iff.mp hout
    obtain ⟨acc', hacc', hout⟩ := Except.bind_eq_ok_iff.mp hout
    exact ih acc' hrest (hinsert acc key a acc' hacc (h r d a hd ha) hacc') hout
  | case3 => cases hout

theorem yields_gather {expected : Expected} {insert : β → String → α → Except DecodeError β}
    {start : β} {I : Nat → β → Prop} (h : decode.Yields P) (hstart : ∀ room, I room start)
    (hinsert : ∀ room acc key a acc', I room acc → P room a → insert acc key a = .ok acc' →
      I room acc') :
    (gather expected decode insert start).Yields fun room b => 0 < room ∧ I (room - 1) b := by
  intro r d b hd hb
  unfold gather at hb
  split at hb
  · by_cases hroom : r.room = 0
    · rw [if_pos hroom] at hb
      cases hb
    rw [if_neg hroom] at hb
    obtain ⟨acc, hacc, hclosed⟩ := Except.bind_eq_ok_iff.mp hb
    split_ifs at hclosed
    cases hclosed
    refine ⟨Nat.pos_of_ne_zero hroom, ?_⟩
    exact membersInto_yields h (hinsert (r.room - 1)) (Draft.wholeMembers_iff.mp hd)
      (hstart (r.room - 1)) hacc
  · exact absurd hb mismatch_ne_ok

theorem yields_dict (h : decode.Yields P) :
    (dict decode).Yields fun room d => 0 < room ∧ ∀ p ∈ d.entries, P (room - 1) p.2 := by
  have hinsert (room : Nat) (acc : Dict α) (key : String) (a : α) (acc' : Dict α)
      (hacc : ∀ p ∈ acc.entries, P room p.2) (ha : P room a)
      (heq : (Except.ok (acc.insert key a) : Except DecodeError _) = .ok acc') :
      ∀ p ∈ acc'.entries, P room p.2 := by
    cases heq
    intro p hp
    rcases Assoc.mem_insert acc.nodup hp with rfl | ⟨hp, -⟩
    · exact ha
    · exact hacc p hp
  exact yields_gather h (fun _ => nofun) hinsert

end Decoder

/-! ### Records -/

namespace Record

variable {α β : Type} {name : String} {decode : Decoder α} {P Q : Nat → α → Prop}

theorem mem_of_find? {entries : List (Option String × Draft)} {place place' : Nat} {d : Draft}
    (h : Members.find? name entries place = some (place', d)) : ∃ key, (key, d) ∈ entries := by
  induction entries generalizing place with
  | nil => cases h
  | cons p rest ih =>
    obtain ⟨key, d'⟩ := p
    rw [Members.find?] at h
    split_ifs at h
    · cases h
      exact ⟨key, List.mem_cons_self⟩
    · obtain ⟨key', hmem⟩ := ih h
      exact ⟨key', List.mem_cons_of_mem _ hmem⟩

theorem yields_member {absent : Members → Placed α} (h : decode.Yields P)
    (habsent : ∀ ms a, absent ms = .ok a → P ms.reading.room a) :
    (member name decode absent).Yields P := by
  intro ms a hms ha
  cases hfind : Members.find? name ms.entries 0 with
  | some found =>
    obtain ⟨place, d⟩ := found
    obtain ⟨key, hmem⟩ := mem_of_find? hfind
    rw [read_of_find? hfind] at ha
    refine h ms.reading d a (hms _ hmem) ?_
    cases hdecode : decode ms.reading d with
    | error e => rw [hdecode] at ha; cases ha
    | ok b => rw [hdecode] at ha; cases ha; rfl
  | none =>
    rw [read_of_find?_eq_none hfind] at ha
    exact habsent ms a ha

theorem yields_required (h : decode.Yields P) : (required name decode).Yields P :=
  yields_member h nofun

theorem yields_optional {default : α} (h : decode.Yields P) (hdefault : ∀ room, P room default) :
    (optional name decode default).Yields P := by
  refine yields_member h fun ms a ha => ?_
  cases ha
  exact hdefault ms.reading.room

theorem yields_any {record : Record α} : record.Yields fun _ _ => True := fun _ _ _ _ => trivial

theorem Yields.map {f : α → β} {record : Record α} {R : Nat → β → Prop} (h : record.Yields P)
    (himp : ∀ room a, P room a → R room (f a)) : (f <$> record).Yields R := by
  intro ms b hms hb
  obtain ⟨a, ha, rfl⟩ := Except.map_eq_ok_iff.mp hb
  exact himp _ a (h ms a hms ha)

theorem Yields.seq {f : Record (α → β)} {record : Record α} {R : Nat → β → Prop}
    (hf : f.Yields fun room g => ∀ a, P room a → R room (g a)) (h : record.Yields P) :
    (f <*> record).Yields R := by
  intro ms b hms hb
  change Placed.both (f.read ms) (record.read ms) = _ at hb
  cases hg : f.read ms with
  | error e => cases ha : record.read ms <;> simp [Placed.both, hg, ha] at hb
  | ok g =>
    cases ha : record.read ms with
    | error e => simp [Placed.both, hg, ha] at hb
    | ok a =>
      rw [hg, ha] at hb
      cases hb
      exact hf ms g hms hg a (h ms a hms ha)

theorem eq_of_settle {fault : Option (Nat × DecodeError)} {value : Placed α} {a : α}
    (h : settle fault value = .ok a) : value = .ok a := by
  unfold settle at h
  split at h <;> first | (cases h; rfl) | cases h

/-- **Records.**  Inside the bracket there is room for one bracket less. -/
theorem yields_decoder {record : Record α} (h : record.Yields fun room a => P (room + 1) a) :
    (record.decoder name).Yields P := by
  intro r d a hd ha
  have hroom (hne : ¬ r.room = 0) : r.enter.room + 1 = r.room :=
    Nat.succ_pred_eq_of_pos (Nat.pos_of_ne_zero hne)
  unfold decoder at ha
  split at ha
  · split_ifs at ha with hne
    rw [← hroom hne]
    refine h _ a (fun p hp => ?_) (eq_of_settle ha)
    obtain ⟨q, hq, rfl⟩ := List.mem_map.mp hp
    exact Draft.wholeMembers_iff.mp hd q hq
  · split_ifs at ha with hne
    rw [← hroom hne]
    refine h _ a (fun p hp => ?_) (eq_of_settle ha)
    exact Draft.wholeItems_iff.mp hd p.2 (List.of_mem_zip hp).2
  · exact absurd ha Decoder.mismatch_ne_ok

end Record

/-! ### Tagged values -/

namespace Tagged

variable {α : Type} {name : String} {kinds : List (String × Decoder α)} {P : Nat → α → Prop}

theorem mem_of_choose {r : Reading} {d : Draft} {decode : Decoder α}
    (h : choose kinds r d = .ok decode) : ∃ kind, (kind, decode) ∈ kinds := by
  unfold choose at h
  split at h
  · split at h
    · rename_i hfind
      cases h
      exact ⟨_, Assoc.mem_of_find? hfind⟩
    · cases h
  · split_ifs at h
    split at h
    · rename_i hget
      cases h
      exact ⟨_, List.mem_of_getElem? hget⟩
    · cases h
  · exact absurd h Decoder.mismatch_ne_ok

theorem mem_of_restOfMembers {r : Reading} {members others : List (Draft × Draft)}
    (h : restOfMembers r members = .ok others) : others = members := by
  induction members generalizing others with
  | nil =>
    cases h
    rfl
  | cons p rest ih =>
    obtain ⟨k, d⟩ := p
    rw [restOfMembers] at h
    split_ifs at h
    obtain ⟨others, hrest, rfl⟩ := Except.map_eq_ok_iff.mp h
    rw [ih hrest]

theorem of_splitMembers {r : Reading} {members others : List (Draft × Draft)}
    {decode? : Option (Decoder α)} (h : splitMembers kinds r members = .ok (decode?, others)) :
    (∀ decode, decode? = some decode → ∃ kind, (kind, decode) ∈ kinds) ∧
      ∀ p ∈ others, p ∈ members := by
  induction members generalizing decode? others with
  | nil =>
    cases h
    exact ⟨nofun, nofun⟩
  | cons p rest ih =>
    obtain ⟨k, d⟩ := p
    rw [splitMembers] at h
    split_ifs at h
    · obtain ⟨decode, hchoose, h⟩ := Except.bind_eq_ok_iff.mp h
      obtain ⟨others', hrest, heq⟩ := Except.bind_eq_ok_iff.mp h
      cases heq
      rw [mem_of_restOfMembers hrest]
      refine ⟨fun decode' heq => ?_, fun p hp => List.mem_cons_of_mem _ hp⟩
      cases heq
      exact mem_of_choose hchoose
    · obtain ⟨⟨decode?', others'⟩, hsplit, heq⟩ := Except.bind_eq_ok_iff.mp h
      cases heq
      obtain ⟨hkind, hmem⟩ := ih hsplit
      exact ⟨hkind, List.forall_mem_cons.mpr
        ⟨List.mem_cons_self, fun p hp => List.mem_cons_of_mem _ (hmem p hp)⟩⟩

/-- **Tagged values.**  The record of a kind takes the bracket of the whole value. -/
theorem yields_decoder (h : ∀ p ∈ kinds, p.2.Yields P) : (decoder name kinds).Yields P := by
  intro r d a hd ha
  unfold decoder at ha
  split at ha
  · rename_i members closed
    split at ha
    · cases ha
    obtain ⟨⟨decode?, others⟩, hsplit, ha⟩ := Except.bind_eq_ok_iff.mp ha
    obtain ⟨hkind, hmem⟩ := of_splitMembers hsplit
    cases closed with
    | false => cases ha
    | true =>
      cases decode? with
      | none => cases ha
      | some decode =>
        obtain ⟨kind, hdecode⟩ := hkind decode rfl
        have hothers : (Draft.obj others true).whole = true := Draft.wholeMembers_iff.mpr
          fun p hp => Draft.wholeMembers_iff.mp hd p (hmem p hp)
        exact h _ hdecode { r with held := true } _ a hothers ha
  · rename_i items closed
    split at ha
    · cases ha
    cases items with
    | nil => cases closed <;> cases ha
    | cons d rest =>
      obtain ⟨decode, hchoose, ha⟩ := Except.bind_eq_ok_iff.mp ha
      split_ifs at ha
      obtain ⟨kind, hdecode⟩ := mem_of_choose hchoose
      have hrest : (Draft.arr rest true).whole = true := (Bool.and_eq_true_iff.mp hd).2
      exact h _ hdecode { r with held := true } _ a hrest ha
  · exact absurd ha Decoder.mismatch_ne_ok

end Tagged

end EntityGraph
