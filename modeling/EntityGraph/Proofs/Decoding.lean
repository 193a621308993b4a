import EntityGraph.Document.Decoder
import EntityGraph.Document.Encode
import EntityGraph.Proofs.Drafts
import EntityGraph.Proofs.Lookup

/-!
# Decoding what has been encoded

`decode.Takes v a` says that a decoder makes `a` of the tree of `v`, however deep the text around it
is nested, as long as there is room for `v`.  There is one lemma for each way in which decoders are
put together:

    text, flags, numbers      what has been written
    sequences, dictionaries   items and members one by one, in order
    records                   all members in order of declaration       (Record.takes_decoder)
    tagged values             the kind first, then a record             (Tagged.takes_decoder)

A record says in the same way what it makes of its members (`Record.Takes`).
-/

namespace EntityGraph

/-! ## Algorithm -/

/-- What is decoded from the tree of `v` is `a`, and `v` has a text. -/
structure Decoder.Takes {α : Type} (decode : Decoder α) (v : Json) (a : α) : Prop where
  whole : v.whole = true
  reads : ∀ r : Reading, v.depth ≤ r.room → decode r v.draft = .ok a

/-- The members of an object, as a record sees them that knows all of them. -/
def Members.ofJson (r : Reading) (members : List (String × Json)) : Members :=
  ⟨r, members.map fun p => (some p.1, p.2.draft), false, .missingMember⟩

/-- What a record makes of the members is `a`, and those it knows have a text. -/
structure Record.Takes {α : Type} (record : Record α) (members : List (String × Json)) (a : α) :
    Prop where
  whole : ∀ name ∈ record.names, ∀ v, Assoc.find? name members = some v → v.whole = true
  reads : ∀ r : Reading, Json.depthMembers members ≤ r.room →
    record.read (Members.ofJson r members) = .ok a

/-! ## Lemmas -/

namespace Decoder

variable {α : Type} {decode : Decoder α} {v : Json} {a : α}

theorem takes_text (s : String) : text.Takes (.str s) s := ⟨rfl, fun _ _ => rfl⟩

theorem takes_flag (b : Bool) : flag.Takes (.bool b) b := ⟨rfl, fun _ _ => rfl⟩

theorem whole_nat {n : Nat} (hn : n < Nat.pow 2 64) : (Json.nat n).whole = true := by
  have hlt : n < 18446744073709551616 := hn
  rw [Json.nat, Json.whole, Number.whole_int_iff]
  omega

theorem takes_unsigned {bits n : Nat} {expected : Expected} (hbits : bits ≤ 64)
    (hn : n < Nat.pow 2 bits) : (unsigned bits expected).Takes (.nat n) n := by
  refine ⟨whole_nat (Nat.lt_of_lt_of_le hn (Nat.pow_le_pow_right Nat.two_pos hbits)), ?_⟩
  intro r _
  have hrange : (0 ≤ (n : Int) && (n : Int) < (Nat.pow 2 bits : Int)) = true := by
    rw [Bool.and_eq_true, decide_eq_true_eq, decide_eq_true_eq]
    exact ⟨Int.natCast_nonneg n, Int.ofNat_lt.mpr hn⟩
  show (if _ then _ else _) = _
  rw [if_pos hrange]
  rfl

theorem takes_id (n : UInt32) : id.Takes (Encode.id n) n := by
  have hn : (unsigned 32 .id).Takes (.nat n.toNat) n.toNat := takes_unsigned (by decide) n.toNat_lt
  refine ⟨hn.whole, fun r h => ?_⟩
  unfold id Encode.id
  rw [hn.reads r h]
  exact congrArg Except.ok (UInt32.ofNat_toNat ..)

theorem takes_index (n : UInt64) : index.Takes (Encode.index n) n := by
  have hn : (unsigned 64 .index).Takes (.nat n.toNat) n.toNat :=
    takes_unsigned (Nat.le_refl _) n.toNat_lt
  refine ⟨hn.whole, fun r h => ?_⟩
  unfold index Encode.index
  rw [hn.reads r h]
  exact congrArg Except.ok (UInt64.ofNat_toNat ..)

theorem takes_map {β : Type} (f : α → β) (h : decode.Takes v a) :
    Decoder.Takes (fun r d => f <$> decode r d) v (f a) := by
  refine ⟨h.whole, fun r hroom => ?_⟩
  show f <$> decode r v.draft = _
  rw [h.reads r hroom]
  rfl

/-! ### Values that may be absent -/

theorem draft_ne_null (hv : v ≠ .null) : v.draft ≠ .null := by
  cases v with
  | null => exact absurd rfl hv
  | _ => simp [Json.draft]

theorem takes_orNull_some (hv : v ≠ .null) (h : decode.Takes v a) :
    (orNull decode).Takes v (some a) := by
  refine ⟨h.whole, fun r hroom => ?_⟩
  rw [orNull, h.reads r hroom]
  · rfl
  · exact draft_ne_null hv

theorem takes_orNull_none : (orNull decode).Takes .null none := ⟨rfl, fun _ _ => rfl⟩

theorem takes_orNull {encode : α → Json} (hne : ∀ a, encode a ≠ .null) {x : Option α}
    (h : ∀ a, x = some a → decode.Takes (encode a) a) :
    (orNull decode).Takes (Encode.orNull encode x) x := by
  cases x with
  | none => exact takes_orNull_none
  | some a => exact takes_orNull_some (hne a) (h a rfl)

theorem takes_text? (s : Option String) : (orNull text).Takes (Encode.text? s) s := by
  cases s with
  | none => exact takes_orNull_none
  | some s => exact takes_orNull_some nofun (takes_text s)

theorem takes_free (hv : v.exact = true) : free.Takes v v := by
  rw [Json.exact, Bool.and_eq_true] at hv
  refine ⟨hv.1, fun r hroom => ?_⟩
  unfold free
  rw [if_pos (Draft.intact_draft hroom), Draft.value?_draft hv.1 hv.2]

/-- A value of which null stands for none must not be null. -/
theorem takes_freeOrNull {x : Option Json} (hx : ∀ v, x = some v → v ≠ .null ∧ v.exact = true) :
    (orNull free).Takes (x.getD .null) x := by
  cases x with
  | none => exact takes_orNull_none
  | some v =>
    obtain ⟨hne, hexact⟩ := hx v rfl
    exact takes_orNull_some hne (takes_free hexact)

/-! ### Sequences and dictionaries -/

theorem takes_sequence {encode : α → Json} {l : List α}
    (h : ∀ a ∈ l, decode.Takes (encode a) a) :
    (sequence decode).Takes (.arr (l.map encode)) l := by
  refine ⟨Json.wholeItems_iff.mpr (List.forall_mem_map.mpr fun a ha => (h a ha).whole), ?_⟩
  intro r hroom
  rw [Json.depth] at hroom
  have hitems := Json.depthItems_le_iff.mp (Nat.le_sub_of_add_le hroom)
  have hne : r.room ≠ 0 := by omega
  have hvalues : ∀ m : List α, (∀ a ∈ m, a ∈ l) →
      (Json.draftItems (m.map encode)).mapM (decode r.enter) = .ok m := by
    intro m hm
    induction m with
    | nil => rfl
    | cons a m ih =>
      have ha := hm a List.mem_cons_self
      have hdecode := (h a ha).reads r.enter (hitems _ (List.mem_map_of_mem ha))
      rw [List.map_cons, Json.draftItems, List.mapM_cons, hdecode,
        ih fun b hb => hm b (List.mem_cons_of_mem _ hb)]
      rfl
  rw [Json.draft, sequence, if_neg hne, hvalues l fun _ ha => ha]
  rfl

/-- Members are gathered one by one. -/
theorem membersInto_draft {β : Type} {insert : β → String → α → Except DecodeError β}
    {encode : α → Json} {r : Reading} {l : List (String × α)} {start done : β}
    (hl : ∀ p ∈ l, decode r (encode p.2).draft = .ok p.2)
    (hdone : l.foldlM (fun acc p => insert acc p.1 p.2) start = .ok done) :
    membersInto decode insert r start (Json.draftMembers (l.map fun p => (p.1, encode p.2))) =
      .ok done := by
  induction l generalizing start with
  | nil => exact hdone
  | cons p l ih =>
    obtain ⟨key, a⟩ := p
    rw [List.foldlM_cons] at hdone
    obtain ⟨mid, hmid, hrest⟩ := Except.bind_eq_ok_iff.mp hdone
    rw [List.map_cons, Json.draftMembers, membersInto, hl (key, a) List.mem_cons_self]
    have hmembers := ih (fun q hq => hl q (List.mem_cons_of_mem _ hq)) hrest
    exact Except.bind_eq_ok_iff.mpr ⟨a, rfl, Except.bind_eq_ok_iff.mpr ⟨mid, hmid, hmembers⟩⟩

theorem takes_gather {β : Type} {insert : β → String → α → Except DecodeError β}
    {encode : α → Json} {expected : Expected} {d : Dict α} {start done : β}
    (h : ∀ p ∈ d.entries, decode.Takes (encode p.2) p.2)
    (hdone : d.entries.foldlM (fun acc p => insert acc p.1 p.2) start = .ok done) :
    (gather expected decode insert start).Takes (Encode.dict encode d) done := by
  have hmembers : Encode.dict encode d = .obj (d.entries.map fun p => (p.1, encode p.2)) := rfl
  refine ⟨Json.wholeMembers_iff.mpr (List.forall_mem_map.mpr fun p hp => (h p hp).whole), ?_⟩
  intro r hroom
  rw [hmembers] at hroom ⊢
  rw [Json.depth] at hroom
  have hvalues := Json.depthMembers_le_iff.mp (Nat.le_sub_of_add_le hroom)
  have hne : r.room ≠ 0 := by omega
  have hreads : ∀ p ∈ d.entries, decode r.enter (encode p.2).draft = .ok p.2 :=
    fun p hp => (h p hp).reads r.enter (hvalues _ (List.mem_map_of_mem hp))
  have hinto := membersInto_draft hreads hdone
  rw [Json.draft, gather, if_neg hne, hinto]
  rfl

/-- Members with distinct names are put behind those that are there, if each new one is. -/
theorem foldlM_of_nodup {β : Type} {insert : β → String → α → Except DecodeError β}
    {entries : β → List (String × α)}
    (hinsert : ∀ acc key value, key ∉ Assoc.keys (entries acc) →
      ∃ acc', insert acc key value = .ok acc' ∧ entries acc' = entries acc ++ [(key, value)])
    {l : List (String × α)} {start : β} (h : (Assoc.keys (entries start ++ l)).Nodup) :
    ∃ done, l.foldlM (fun acc p => insert acc p.1 p.2) start = .ok done ∧
      entries done = entries start ++ l := by
  induction l generalizing start with
  | nil => exact ⟨start, rfl, (List.append_nil _).symm⟩
  | cons p l ih =>
    have hnew : p.1 ∉ Assoc.keys (entries start) := by
      rw [Assoc.keys_append, List.nodup_append] at h
      exact fun hmem => h.2.2 _ hmem p.1 List.mem_cons_self rfl
    obtain ⟨mid, hmid, hentries⟩ := hinsert start p.1 p.2 hnew
    have hassoc : entries start ++ p :: l = entries mid ++ l := by
      rw [hentries, List.append_assoc]
      rfl
    rw [hassoc] at h ⊢
    obtain ⟨done, hdone, hall⟩ := ih h
    exact ⟨done, Except.bind_eq_ok_iff.mpr ⟨mid, hmid, hdone⟩, hall⟩

theorem takes_dict {encode : α → Json} {d : Dict α}
    (h : ∀ p ∈ d.entries, decode.Takes (encode p.2) p.2) :
    (dict decode).Takes (Encode.dict encode d) d := by
  have hinsert (acc : Dict α) (key : String) (value : α) (hnew : key ∉ Assoc.keys acc.entries) :
      ∃ acc' : Dict α, (Except.ok (acc.insert key value) : Except DecodeError _) = .ok acc' ∧
        acc'.entries = acc.entries ++ [(key, value)] :=
    ⟨_, rfl, Dict.entries_insert_of_not_mem value hnew⟩
  have hnodup : (Assoc.keys ((Dict.empty : Dict α).entries ++ d.entries)).Nodup := d.nodup
  obtain ⟨d', hfold, hentries⟩ := foldlM_of_nodup hinsert hnodup
  rw [Dict.ext hentries] at hfold
  exact takes_gather h hfold

end Decoder

/-! ### Records -/

namespace Record

variable {α β : Type} {name : String} {decode : Decoder α} {members : List (String × Json)}
  {v : Json} {a : α}

section

variable {absent : Members → Placed α} {ms : Members}

theorem read_of_find? {place : Nat} {d : Draft}
    (h : Members.find? name ms.entries 0 = some (place, d)) :
    (member name decode absent).read ms =
      (decode ms.reading d).mapError fun e => (place, e) := by
  simp only [member, h]

theorem read_of_find?_eq_none (h : Members.find? name ms.entries 0 = none) :
    (member name decode absent).read ms = absent ms := by
  simp only [member, h]

end

theorem find?_ofJson (hv : Assoc.find? name members = some v) (place : Nat) :
    ∃ place', Members.find? name (members.map fun p => (some p.1, p.2.draft)) place =
      some (place', v.draft) := by
  induction members generalizing place with
  | nil => cases hv
  | cons p rest ih =>
    rw [List.map_cons, Members.find?]
    by_cases hname : p.1 = name
    · rw [Assoc.find?, if_pos hname] at hv
      cases hv
      exact ⟨place, if_pos (congrArg some hname)⟩
    · rw [Assoc.find?, if_neg hname] at hv
      rw [if_neg fun heq => hname (Option.some.inj heq)]
      exact ih hv (place + 1)

theorem takes_member {absent : Members → Placed α} (hv : Assoc.find? name members = some v)
    (h : decode.Takes v a) : (member name decode absent).Takes members a := by
  refine ⟨fun key hkey w hw => ?_, fun r hroom => ?_⟩
  · rw [List.mem_singleton.mp hkey, hv] at hw
    exact Option.some.inj hw ▸ h.whole
  obtain ⟨place, hfind⟩ := find?_ofJson hv 0
  have hdepth := Json.depthMembers_le_iff.mp hroom _ (Assoc.mem_of_find? hv)
  rw [read_of_find? hfind]
  show (decode r v.draft).mapError _ = _
  rw [h.reads r hdepth]
  rfl

theorem Takes.map (f : α → β) {record : Record α} (h : record.Takes members a) :
    (f <$> record).Takes members (f a) := by
  refine ⟨h.whole, fun r hroom => ?_⟩
  show f <$> record.read _ = _
  rw [h.reads r hroom]
  rfl

theorem Takes.seq {f : Record (α → β)} {record : Record α} {g : α → β} (hf : f.Takes members g)
    (h : record.Takes members a) : (f <*> record).Takes members (g a) := by
  refine ⟨fun name hname => ?_, fun r hroom => ?_⟩
  · exact (List.mem_append.mp hname).elim (hf.whole name) (h.whole name)
  show Placed.both (f.read _) (record.read _) = _
  rw [hf.reads r hroom, h.reads r hroom]
  rfl

theorem meaning_of_mem {known : List String} (h : name ∈ known) :
    meaning known (.str (some name)) = .known name := if_pos h

/-- Nothing is wrong with an object that has known members only, and each of them once. -/
theorem objectFault_draft {known seen : List String} (place : Nat)
    (hknown : ∀ p ∈ members, p.1 ∈ known) (hseen : ∀ p ∈ members, p.1 ∉ seen)
    (hnodup : (Assoc.keys members).Nodup) :
    objectFault known true seen place (Json.draftMembers members) = none := by
  induction members generalizing seen place with
  | nil => rfl
  | cons p rest ih =>
    obtain ⟨k, v⟩ := p
    rw [Assoc.keys_cons, List.nodup_cons] at hnodup
    rw [Json.draftMembers, objectFault, meaning_of_mem (hknown (k, v) List.mem_cons_self)]
    dsimp only
    rw [if_neg (hseen (k, v) List.mem_cons_self)]
    refine ih _ (fun q hq => hknown q (List.mem_cons_of_mem _ hq)) (fun q hq hmem => ?_) hnodup.2
    rcases List.mem_cons.mp hmem with heq | hmem
    · have hmem := Assoc.mem_keys_of_mem hq
      rw [heq] at hmem
      exact hnodup.1 hmem
    · exact hseen q (List.mem_cons_of_mem _ hq) hmem

/-- **Records.**  An object that has just the members of a record is read as it says. -/
theorem takes_decoder {record : Record α} {b : α} (hnames : Assoc.keys members = record.names)
    (hnodup : record.names.Nodup) (h : record.Takes members b) (hb : b = a) :
    (record.decoder name).Takes (.obj members) a := by
  subst hb
  have hknown : ∀ p ∈ members, p.1 ∈ record.names := by
    intro p hp
    rw [← hnames]
    exact Assoc.mem_keys_of_mem hp
  refine ⟨Json.wholeMembers_iff.mpr fun p hp => ?_, fun r hroom => ?_⟩
  · exact h.whole p.1 (hknown p hp) p.2 (Assoc.find?_of_mem (hnames ▸ hnodup) hp)
  rw [Json.depth] at hroom
  have hne : r.room ≠ 0 := by omega
  have hfault : objectFault record.names true [] 0 (Json.draftMembers members) = none :=
    objectFault_draft 0 hknown (fun _ _ => List.not_mem_nil) (hnames ▸ hnodup)
  have hentries : (Json.draftMembers members).map
      (fun p => ((meaning record.names p.1).name?, p.2)) =
      members.map fun p => (some p.1, p.2.draft) := by
    rw [Json.draftMembers_eq, List.map_map]
    refine List.map_congr_left fun p hp => ?_
    simp only [Function.comp_apply, meaning_of_mem (hknown p hp)]
    rfl
  have hread := h.reads r.enter (Nat.le_sub_of_add_le hroom)
  rw [Json.draft, decoder, if_neg hne, hfault, hentries]
  show settle none (record.read (Members.ofJson r.enter members)) = _
  rw [hread]
  rfl

end Record

/-! ### Tagged values -/

@[simp] theorem Encode.depth_tagged (kind : String) (members : List (String × Json)) :
    (tagged kind members).depth = (Json.obj members).depth := congrArg (· + 1) (Nat.zero_max _)

namespace Tagged

variable {α : Type} {name kind : String} {kinds : List (String × Decoder α)}
  {members : List (String × Json)} {decode : Decoder α} {a : α}

theorem restOfMembers_draft {r : Reading} (hkey : key ∉ Assoc.keys members)
    (hroom : Json.depthMembers members ≤ r.room) :
    restOfMembers r (Json.draftMembers members) = .ok (Json.draftMembers members) := by
  induction members with
  | nil => rfl
  | cons p rest ih =>
    obtain ⟨k, v⟩ := p
    rw [Assoc.keys_cons, List.mem_cons, not_or] at hkey
    rw [Json.depthMembers, Nat.max_le] at hroom
    have hk : isKey (.str (some k)) = false := decide_eq_false (Ne.symm hkey.1)
    rw [Json.draftMembers, restOfMembers, hk, Draft.intact_draft hroom.1, ih hkey.2 hroom.2]
    rfl

/-- **Tagged values.**  The kind comes first and says how the other members are read. -/
theorem takes_decoder (hkind : Assoc.find? kind kinds = some decode)
    (hkey : Assoc.find? key members = none) (h : decode.Takes (.obj members) a) :
    (decoder name kinds).Takes (Encode.tagged kind members) a := by
  refine ⟨h.whole, fun r hroom => ?_⟩
  rw [Encode.depth_tagged, Json.depth] at hroom
  have hne : r.room ≠ 0 := by omega
  have hrest : restOfMembers r.enter (Json.draftMembers members) = _ :=
    restOfMembers_draft (Assoc.find?_eq_none_iff.mp hkey) (Nat.le_sub_of_add_le hroom)
  have hchoose : choose kinds r.enter (.str (some kind)) = .ok decode := by
    rw [choose, hkind]
  have hsplit : splitMembers kinds r.enter
      ((.str (some key), .str (some kind)) :: Json.draftMembers members) =
      .ok (some decode, Json.draftMembers members) := by
    have hk : isKey (.str (some key)) = true := rfl
    rw [splitMembers, hk, if_pos rfl, hchoose]
    show restOfMembers _ _ >>= _ = _
    rw [hrest]
    rfl
  show (if _ then _ else _) = _
  rw [if_neg hne]
  show splitMembers kinds r.enter
    ((.str (some key), .str (some kind)) :: Json.draftMembers members) >>= _ = _
  rw [hsplit]
  exact h.reads { r with held := true } hroom

end Tagged

end EntityGraph
