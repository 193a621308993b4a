import EntityGraph.Proofs.WellFormed
import Mathlib.Data.List.Nodup

/-!
# The order of the entries

Which entry requests an instantiation first, and so its depth and its place among the others,
depends on the order in which the entries of a graph stand.  What is reached does not: it is read
off the names alone (`reaches_congr`).  In a graph without files and hooks, what has been
visited in a complete run is exactly what is reached, so two runs on the same entries make the
same visits in another order (`shown_perm`).

    g.entities.entries.Perm g'.entities.entries →
      ((∃ n, g.normalize = .ok n) ↔ ∃ n', g'.normalize = .ok n') ∧ …        (normalize_perm)
-/

namespace EntityGraph

open Normalize

/-! ## Algorithm -/

/-- There are no files and hooks of lists to forget in the types of the fields. -/
def Object.Plain (o : Object) : Prop := o.mapTypes FieldType.bare = o

/-- A graph whose objects inherit from entries only, in which no list of arguments is empty, no
reference has a file and no list has hooks. -/
structure Graph.Regular (g : Graph) : Prop where
  closed : g.Closed
  full : g.Full
  plain : g.AllObjects Object.Plain

/-- The same results, in what may be another order. -/
structure Normalized.SameUpToOrder (n n' : Normalized) : Prop where
  input : ∀ name, n.input.find? name = n'.input.find? name
  output : ∀ name, n.output.find? name = n'.output.find? name
  specializations : n.specializations.Perm n'.specializations
  diagnostics : n.diagnostics.Perm n'.diagnostics

/-- What a visit comes to, wherever the entry stands. -/
def Normalize.Visit.shown (v : Visit) : String × Node × Report :=
  (v.entry.name, v.entry.node, v.report)

/-! ## Lemmas -/

theorem Dict.find?_eq_of_perm {α : Type} {d d' : Dict α} (h : d.entries.Perm d'.entries)
    (name : String) : d.find? name = d'.find? name := by
  refine Option.ext fun x => ?_
  rw [Dict.find?_eq_some_iff, Dict.find?_eq_some_iff, h.mem_iff]

/-! ### Objects without files and hooks -/

namespace Object.Plain

variable {o t : Object} {r : Reference} {lookup : String → Option Node}

theorem bare_type (ho : o.Plain) {key : String} {field : Field}
    (hfield : o.fields.find? key = some field) {ty : FieldType} (hty : ty ∈ field.types) :
    ty.bare = ty := by
  have hfind : (o.mapTypes FieldType.bare).fields.find? key =
      (o.fields.find? key).map (Field.mapTypes FieldType.bare) := o.find?_fields_mapTypes key
  rw [show o.mapTypes FieldType.bare = o from ho, hfield, Option.map_some] at hfind
  have htypes : (field.mapTypes FieldType.bare).types = field.types.map FieldType.bare :=
    field.types_mapTypes
  rw [← Option.some.inj hfind] at htypes
  exact List.map_inj_left.mp (htypes.symm.trans (List.map_id _).symm) ty hty

theorem forget_requests (ho : o.Plain)
    (hlookup : ∀ name owner, lookup name = some (.object owner) → owner.Plain)
    (hr : o.Requests lookup r) : r.forget (fun _ => .none) = r := by
  obtain ⟨p, -, field, hprov, ty, hty, happlied⟩ := hr
  have hbare : ty.bare = ty := by
    rcases hprov with hown | ⟨-, pre, name, post, -, -, owner, howner, hfield⟩
    · exact ho.bare_type hown hty
    · exact (hlookup name owner howner).bare_type hfield hty
  obtain ⟨args, -, rfl⟩ := Option.map_eq_some_iff.mp happlied
  rw [← FieldType.terminal_forget, ← FieldType.bare, hbare]

theorem instanceOf (ht : t.Plain) (hr : r.forget (fun _ => .none) = r) (escaped : String) :
    (t.instanceOf r escaped).Plain := by
  have hmap := t.mapTypes_instanceOf (fun _ => .none) r escaped
  rw [hr, show t.mapTypes (·.forget fun _ => .none) = t from ht] at hmap
  exact hmap

theorem eq_of_alike {o' : Object} (ho : o.Plain) (ho' : o'.Plain) (h : o.Alike o') : o = o' := by
  rw [← show o.mapTypes FieldType.bare = o from ho,
    ← show o'.mapTypes FieldType.bare = o' from ho']
  exact h

end Object.Plain

namespace Normalize

variable {g g' : Graph} {h h' : List Visit} {st st' : State}

theorem plain_of_reaches (hg : g.Regular) {d : Nat} {name : String} {o : Object}
    (hreach : g.Reaches d name o) : o.Plain := by
  induction hreach with
  | entry ho _ => exact hg.plain.find? ho
  | request _ hr ht ho' ih =>
    rw [(Object.instantiate_ok_iff.mp ho').2]
    have hforget := ih.forget_requests (fun _ _ howner => hg.plain.find? howner) hr
    exact (hg.plain.find? ht).instanceOf hforget _

/-! ### What does not depend on the order -/

section

variable (hfind : g.find? = g'.find?)

include hfind

theorem contains_congr : g.contains = g'.contains := by
  funext name
  exact congrArg Option.isSome (congrFun hfind name)

theorem reaches_congr {d : Nat} {name : String} {o : Object} (hreach : g.Reaches d name o) :
    g'.Reaches d name o := by
  induction hreach with
  | entry ho htemplate => exact .entry (hfind ▸ ho) htemplate
  | request _ hr ht ho' ih => exact .request ih (hfind ▸ hr) (hfind ▸ ht) ho'

theorem requested_congr {d : Nat} {r : Reference} (hr : g.Requested d r) : g'.Requested d r := by
  obtain ⟨name, o, hreach, hr⟩ := hr
  exact ⟨name, o, reaches_congr hfind hreach, hfind ▸ hr⟩

/-- Graphs that know the same names by the same nodes are well-formed together. -/
theorem wellFormed_congr (hperm : g.entities.entries.Perm g'.entities.entries)
    (hwf : g.WellFormed) : g'.WellFormed := by
  have hreq : ∀ d r, g'.Requested d r → g.Requested d r :=
    fun _ _ hr => requested_congr hfind.symm hr
  have hcontains := contains_congr hfind
  exact
    { kinds := fun p hp => hwf.kinds p (hperm.mem_iff.mpr hp)
      ancestors := fun d name o ho =>
        hfind ▸ hwf.ancestors d name o (reaches_congr hfind.symm ho)
      templates := fun d r hr => hfind ▸ hwf.templates d r (hreq d r hr)
      free := fun d r hr => hcontains ▸ hwf.free d r (hreq d r hr)
      names := fun d r d' r' hr hr' => hwf.names d r d' r' (hreq d r hr) (hreq d' r' hr')
      depth := fun d r hr => by
        obtain ⟨d', o, hd', ho⟩ := hwf.depth d r (hreq d r hr)
        exact ⟨d', o, hd', reaches_congr hfind ho⟩ }

end

theorem regular_perm (hperm : g.entities.entries.Perm g'.entities.entries)
    (hfind : g.find? = g'.find?) (hg : g.Regular) : g'.Regular := by
  have hclosed : Object.Closed g = Object.Closed g' := by
    funext o
    rw [Object.Closed, Object.Closed, contains_congr hfind]
  refine ⟨fun p hp => ?_, fun p hp => hg.full p (hperm.mem_iff.mpr hp),
    fun p hp => hg.plain p (hperm.mem_iff.mpr hp)⟩
  have h := hg.closed p (hperm.mem_iff.mpr hp)
  rwa [hclosed] at h

/-! ### Two runs on the same entries -/

section

variable (hperm : g.entities.entries.Perm g'.entities.entries) (hfind : g.find? = g'.find?)
  (hg : g.Regular) (hg' : g'.Regular) (hc : Consistent g h st) (hc' : Consistent g' h' st')
  (hcomplete' : Complete g' h' st')

include hperm hfind hg hg' hc hc' hcomplete'

/-- What one run visits, the other one does. -/
theorem exists_same_entry {e : Entry} (he : e ∈ worklist g st) :
    ∃ v ∈ h', v.entry.name = e.name ∧ v.entry.node = e.node := by
  rcases mem_worklist_iff.mp he with ⟨p, hp, rfl⟩ | ⟨p, hp, rfl⟩
  · obtain ⟨v, hv, hentry⟩ :=
      hcomplete'.exists_visit (mem_worklist_of_graph (hperm.mem_iff.mp hp))
    exact ⟨v, hv, by rw [hentry], by rw [hentry]⟩
  · have htemplate := hc.noTemplates.find? (Dict.find?_eq_some_iff.mpr hp)
    have hreach := reaches_of_mem_worklist hg.closed hc he rfl htemplate
    obtain ⟨v, hv, hname, -, o, hnode, ho, halike⟩ := covered hg'.full hg'.closed hc'
      (hcomplete'.visitedBelow _) (reaches_congr hfind hreach) (Nat.lt_succ_self _)
    have hreach' := reaches_of_mem_worklist hg'.closed hc' (hc'.mem_worklist hv) hnode ho
    have heq := (plain_of_reaches hg hreach).eq_of_alike (plain_of_reaches hg' hreach') halike
    exact ⟨v, hv, hname, by rw [hnode, ← heq]; rfl⟩

theorem shown_subset : h.map Visit.shown ⊆ h'.map Visit.shown := by
  intro x hx
  obtain ⟨v, hv, rfl⟩ := List.mem_map.mp hx
  obtain ⟨v', hv', hname, hnode⟩ :=
    exists_same_entry hperm hfind hg hg' hc hc' hcomplete' (hc.mem_worklist hv)
  have hreport := report_visit hg.closed hc hv
  have hreport' := report_visit hg'.closed hc' hv'
  rw [hname, hnode, ← hfind, hreport] at hreport'
  refine List.mem_map.mpr ⟨v', hv', ?_⟩
  rw [Visit.shown, Visit.shown, hname, hnode, Except.ok.inj hreport']

/-- What one run instantiates, the other one does. -/
theorem instances_subset : st.instances.entries.map (fun p => (p.1, p.2.object)) ⊆
    st'.instances.entries.map fun p => (p.1, p.2.object) := by
  intro x hx
  obtain ⟨p, hp, rfl⟩ := List.mem_map.mp hx
  obtain ⟨v, hv, hname, hnode⟩ := exists_same_entry hperm hfind hg hg' hc hc' hcomplete'
    (mem_worklist_of_instances hp)
  rcases mem_worklist_iff.mp (hc'.mem_worklist hv) with ⟨p', hp', hentry⟩ | ⟨p', hp', hentry⟩
  · -- the name of an instantiation is not that of an entry
    rw [← hentry] at hname
    have hkey : p'.1 = p.1 := hname
    have hmem' : p.1 ∈ g.entities.keys :=
      hkey ▸ Assoc.mem_keys_of_mem (hperm.mem_iff.mpr hp')
    exact absurd hmem' (Dict.contains_eq_false_iff.mp (hc.free p hp))
  · rw [← hentry] at hname hnode
    refine List.mem_map.mpr ⟨p', hp', ?_⟩
    rw [show p'.1 = p.1 from hname, Node.object.inj hnode]

end

theorem nodup_shown (hc : Consistent g h st) (hcomplete : Complete g h st) :
    (h.map Visit.shown).Nodup := by
  refine List.Nodup.of_map Prod.fst ?_
  have hnames := nodup_names_worklist hc.free
  rw [← hcomplete, List.map_map] at hnames
  rwa [List.map_map]

section

variable (hperm : g.entities.entries.Perm g'.entities.entries) (hfind : g.find? = g'.find?)
  (hg : g.Regular) (hg' : g'.Regular) (hrun : Run g h st) (hcomplete : Complete g h st)
  (hrun' : Run g' h' st') (hcomplete' : Complete g' h' st')

include hperm hfind hg hg' hrun hcomplete hrun' hcomplete'

/-- **Two complete runs on the same entries make the same visits.** -/
theorem shown_perm : (h.map Visit.shown).Perm (h'.map Visit.shown) := by
  have hc := hrun.consistent
  have hc' := hrun'.consistent
  have hsub := shown_subset hperm hfind hg hg' hc hc' hcomplete'
  have hsub' := shown_subset hperm.symm hfind.symm hg' hg hc' hc hcomplete
  exact (List.perm_ext_iff_of_nodup (nodup_shown hc hcomplete) (nodup_shown hc' hcomplete')).mpr
    fun x => ⟨fun hx => hsub hx, fun hx => hsub' hx⟩

theorem instances_perm : (st.instances.entries.map fun p => (p.1, p.2.object)).Perm
    (st'.instances.entries.map fun p => (p.1, p.2.object)) := by
  have hc := hrun.consistent
  have hc' := hrun'.consistent
  have hnodup : ∀ s : State, (s.instances.entries.map fun p => (p.1, p.2.object)).Nodup := by
    intro s
    refine List.Nodup.of_map Prod.fst ?_
    rw [List.map_map]
    exact s.instances.nodup
  have hsub := instances_subset hperm hfind hg hg' hc hc' hcomplete'
  have hsub' := instances_subset hperm.symm hfind.symm hg' hg hc' hc hcomplete
  exact (List.perm_ext_iff_of_nodup (hnodup st) (hnodup st')).mpr
    fun x => ⟨fun hx => hsub hx, fun hx => hsub' hx⟩

theorem result_sameUpToOrder : st.result.SameUpToOrder st'.result := by
  have hc := hrun.consistent
  have hc' := hrun'.consistent
  have hshown := shown_perm hperm hfind hg hg' hrun hcomplete hrun' hcomplete'
  refine ⟨Dict.find?_eq_of_perm ?_, Dict.find?_eq_of_perm ?_, ?_, ?_⟩
  · have hinput := hshown.filterMap fun x => x.2.2.input.map (x.1, ·)
    rw [List.filterMap_map, List.filterMap_map] at hinput
    rw [State.result, State.result, hc.input, hc'.input]
    exact hinput
  · have houtput := hshown.filterMap fun x => x.2.2.output.map (x.1, ·)
    rw [List.filterMap_map, List.filterMap_map] at houtput
    rw [State.result, State.result, hc.output, hc'.output]
    exact houtput
  · have hobjects :=
      (instances_perm hperm hfind hg hg' hrun hcomplete hrun' hcomplete').map Prod.snd
    rw [List.map_map, List.map_map] at hobjects
    rw [State.result, State.result, Dict.values, Dict.values, List.map_map, List.map_map]
    exact hobjects
  · have hdiagnostics := hshown.flatMap_right fun x => x.2.2.diagnostics
    rw [List.flatMap_map, List.flatMap_map] at hdiagnostics
    rw [State.result, State.result, hc.diagnostics, hc'.diagnostics]
    exact hdiagnostics

end

end Normalize

/-- **The order of the entries does not matter.** -/
theorem Graph.normalize_perm {g g' : Graph} (hperm : g.entities.entries.Perm g'.entities.entries)
    (hg : g.Regular) : ((∃ n, g.normalize = .ok n) ↔ ∃ n', g'.normalize = .ok n') ∧
      ∀ n n', g.normalize = .ok n → g'.normalize = .ok n' → n.SameUpToOrder n' := by
  have hfind : g.find? = g'.find? := funext fun name => Dict.find?_eq_of_perm hperm name
  have hg' := regular_perm hperm hfind hg
  refine ⟨⟨?_, ?_⟩, fun n n' hn hn' => ?_⟩
  · rintro ⟨n, hn⟩
    have hwf := wellFormed_of_normalize hg.closed hg.full hn
    exact exists_normalize_of_wellFormed hg'.closed hg'.full (wellFormed_congr hfind hperm hwf)
  · rintro ⟨n', hn'⟩
    have hwf := wellFormed_of_normalize hg'.closed hg'.full hn'
    exact exists_normalize_of_wellFormed hg.closed hg.full
      (wellFormed_congr hfind.symm hperm.symm hwf)
  · obtain ⟨h, st, hrun, hcomplete, rfl⟩ := normalize_ok hn
    obtain ⟨h', st', hrun', hcomplete', rfl⟩ := normalize_ok hn'
    exact result_sameUpToOrder hperm hfind hg hg' hrun hcomplete hrun' hcomplete'

/-- The same graph with its entries in the opposite order. -/
def Graph.reversed (g : Graph) : Graph :=
  ⟨⟨g.entities.entries.reverse, by
    rw [Assoc.keys, List.map_reverse]
    exact List.nodup_reverse.mpr g.entities.nodup⟩⟩

theorem Graph.normalize_reversed_pages : ∃ n n', pages.normalize = .ok n ∧
    pages.reversed.normalize = .ok n' ∧ n.SameUpToOrder n' := by
  have hplain : pages.AllObjects Object.Plain :=
    List.forall_mem_cons.mpr ⟨trivial, List.forall_mem_cons.mpr ⟨rfl,
      List.forall_mem_cons.mpr ⟨rfl, List.forall_mem_cons.mpr ⟨rfl, by simp⟩⟩⟩⟩
  have hregular : pages.Regular := ⟨by decide, by decide, hplain⟩
  have hperm : pages.entities.entries.Perm pages.reversed.entities.entries :=
    (List.reverse_perm _).symm
  obtain ⟨n, hn⟩ : ∃ n, pages.normalize = .ok n := ⟨_, rfl⟩
  obtain ⟨n', hn'⟩ : ∃ n', pages.reversed.normalize = .ok n' := ⟨_, rfl⟩
  exact ⟨n, n', hn, hn', (normalize_perm hperm hregular).2 n n' hn hn'⟩

end EntityGraph
