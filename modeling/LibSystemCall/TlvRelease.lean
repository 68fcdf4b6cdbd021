import LibSystemCall.TlvCleanup

/-! # Terminators run before their buffers are freed

The invariant of the runs in which destructors register in time. -/
namespace TlvCleanup

open GuardedSystem TsdKeys TsdCleanup TlvTerminators

section

variable [CodeAddresses] {s t : Tlv} {key : ℕ} {value : Option Value} {log : List Action}

/-- A buffer that the round will free after the place is passed only in the last round. -/
def Passed : Place → ℕ → Prop
  | .dynamic _ k, key => k ≤ pthreadTsdStart ∨ key < k
  | _, _ => True

def Over : Place → Prop
  | .body => False
  | .dynamic round k => pthreadDestructorIterations ≤ round + 1 ∧ pthreadTsdStart < k
  | .static round _ => pthreadDestructorIterations ≤ round + 1
  | .done => True

def Held (s : Tlv) (place : Place) (e : Entry) : Prop :=
  ∃ k, s.slot k = some (.buffer e.buffer) ∧ Passed place k

structure Base (s : State) : Prop where
  table : TableOk s.tlv
  heap : HeapOk s.tlv s.log
  frames : ∀ l ∈ s.lists, ∀ e ∈ l, Held s.tlv s.place e
  pending : ¬ Over s.place → ∀ e ∈ pendingEntries s.tlv, Held s.tlv s.place e
  place : s.lists ≠ [] → ∃ round, s.place = .dynamic round pthreadTsdStart
  ordered : Ordered s.log

/-- While a list is finalized, a new one exists only as long as user code runs. -/
structure Invariant (s : State) : Prop extends Base s where
  drained : s.lists ≠ [] → s.busy = false → s.tlv.slot pthreadTsdStart = none
  user : s.busy = true → s.lists = [] → ∀ round, s.place ≠ .dynamic round pthreadTsdStart

omit [CodeAddresses] in
theorem Grows.held (hg : Grows s t) {place : Place} {e : Entry} (h : Held s place e) :
    Held t place e := by
  obtain ⟨k, hk, hp⟩ := h
  exact ⟨k, hg k _ hk, hp⟩

omit [CodeAddresses] in
theorem ordered_append {log : List Action} (h : Ordered log) {a : Action}
    (ha : ∀ e, a = .ran e → .freed e.buffer ∉ log) : Ordered (log ++ [a]) := by
  intro l₁ e l₂ heq hfreed
  rcases List.eq_nil_or_concat l₂ with rfl | ⟨l₂, b, rfl⟩
  · obtain ⟨rfl, hb⟩ := List.append_inj' heq rfl
    exact ha e (by simpa using hb) hfreed
  · rw [List.concat_eq_append, ← List.cons_append, ← List.append_assoc] at heq
    obtain ⟨rfl, _⟩ := List.append_inj' heq rfl
    exact h l₁ e l₂ rfl hfreed

theorem Invariant.mutate {s : State} (h : Invariant s) {t : Tlv} (ht : TableOk t)
    (hh : HeapOk t s.log) (hg : Grows s.tlv t)
    (hp : ∀ e ∈ pendingEntries t, e ∈ pendingEntries s.tlv ∨
      (¬ Over s.place → Held t s.place e))
    (hd : s.busy = true ∨ t.slot pthreadTsdStart = s.tlv.slot pthreadTsdStart) :
    Invariant { s with tlv := t } where
  table := ht
  heap := hh
  frames l hl e he := hg.held (h.frames l hl e he)
  pending ho e he := by
    rcases hp e he with hold | hnew
    · exact hg.held (h.pending ho e hold)
    · exact hnew ho
  place := h.place
  ordered := h.ordered
  drained hl hb := by
    rcases hd with hbusy | hsame
    · rw [hbusy] at hb
      cases hb
    · exact hsame.trans (h.drained hl hb)
  user := h.user

omit [CodeAddresses] in
theorem HeapOk.create (h : HeapOk s log) {k : ℕ} (hd : Dynamic k) (hk : ¬ Live s.tsd k)
    (entry : BitVec 64) {images : List Image} (hi : images = s.images ∨
      ∃ size, images = s.images ++ [⟨k, size⟩]) :
    HeapOk { s with
      tsd := { s.tsd with keys := Function.update s.tsd.keys k entry }, images := images } log := by
  refine ⟨fun j v hj => ?_, fun j hj hdead => ?_, h.fresh, h.distinct, h.unfreed, h.old⟩
  · have hjk : j ≠ k := by
      rintro rfl
      have hnone := h.dead j hd hk
      rw [show s.slot j = some v from hj] at hnone
      cases hnone
    have hbelongs := h.values j v hj
    rcases hi with rfl | ⟨size, rfl⟩
    · exact hbelongs
    · cases v with
      | buffer b => exact List.mem_map.mpr (by
          obtain ⟨image, hm, hkey⟩ := List.mem_map.mp hbelongs
          exact ⟨image, List.mem_append_left _ hm, hkey⟩)
      | terminators list => exact hbelongs
      | user n =>
        refine ⟨hbelongs.1, fun hm => ?_⟩
        simp only [imageKeys, List.map_append, List.mem_append, List.map_cons, List.map_nil,
          List.mem_singleton] at hm
        exact hm.elim hbelongs.2 hjk
  · refine h.dead j hj fun hlive => ?_
    by_cases hjk : j = k
    · exact hk (hjk ▸ hlive)
    · apply hdead
      change Function.update s.tsd.keys k entry j ≠ 0#64
      rw [Function.update_of_ne hjk]
      exact hlive

theorem Invariant.createKey {s : State} (h : Invariant s) {destructor : BitVec 64}
    (hd : destructor ≠ tlvFinalize ∧ destructor ≠ tlvFree) :
    Invariant (next s (.createKey destructor)) := by
  simp only [next]
  rcases create_cases s.tlv.tsd destructor with ⟨k, hk, hdead, hc⟩ | ⟨_, hc⟩
  · rw [hc]
    exact h.mutate (h.table.createKey hdead hd)
      (h.heap.create hk hdead _ (.inl rfl)) (fun _ _ hb => hb) (fun _ he => .inl he) (.inr rfl)
  · rw [hc]
    exact h

theorem Invariant.loadImage {s : State} (h : Invariant s) {size : ℕ}
    (he : Enabled s (.loadImage size)) : Invariant (next s (.loadImage size)) := by
  simp only [next, zPthreadTlvInitializeDescriptors]
  rcases create_cases s.tlv.tsd tlvFree with ⟨k, hk, hdead, hc⟩ | ⟨_, hc⟩
  · rw [hc]
    exact h.mutate (h.table.loadImage hdead hk)
      (h.heap.create hk hdead _ (.inr ⟨size, rfl⟩)) (fun _ _ hb => hb) (fun _ he => .inl he)
      (.inr rfl)
  · simp only [Enabled, hc] at he
    cases he

theorem Invariant.setspecific {s : State} (h : Invariant s) {key : ℕ} {value : Option ℕ}
    (he : Enabled s (.setspecific key value)) : Invariant (next s (.setspecific key value)) := by
  obtain ⟨_, hkey, himage⟩ := he
  simp only [next]
  by_cases hs : Settable s.tlv.tsd key
  · have hsets := setspecific_sets hs (value.map .user)
    have hne : key ≠ pthreadTsdStart := h.table.terminatorsKey ▸ hkey
    refine h.mutate (h.table.sets hsets) (h.heap.sets hsets fun v hv => ?_) (fun k b hb => ?_)
      (fun e he => ?_) (.inr ?_)
    · obtain ⟨n, _, rfl⟩ := Option.map_eq_some_iff.mp hv
      exact ⟨⟨hne, himage⟩, by simp, fun hd => hs.2.2.resolve_left (by have := hd.1; omega)⟩
    · rw [hsets.slot, if_neg]
      · exact hb
      · rintro rfl
        exact himage (h.heap.values k _ hb)
    · rw [pendingEntries_sets hsets hkey] at he
      exact .inl he
    · rw [hsets.slot, if_neg (Ne.symm hne)]
  · rw [setspecific_of_not hs]
    exact h

theorem Touched.pending {t : Tlv} (ht : Touched s t key log value) (h : TableOk s) :
    pendingEntries t = pendingEntries s := by
  rw [pendingEntries, ht.table.terminatorsKey, ht.terminators, pendingEntries, h.terminatorsKey]

theorem Invariant.touch {s : State} (h : Invariant s) {key : ℕ}
    (he : Enabled s (.touch key)) : Invariant (next s (.touch key)) := by
  have ht := getAddr_touched h.table h.heap he.2
  refine h.mutate ht.table ht.heap ht.grows (fun e he => ?_) (.inr ht.terminators)
  rw [ht.pending h.table] at he
  exact .inl he

/-- The place of a registration that is in time. -/
theorem passed_of_inTime {s : State} (h : Base s) {termFunc key offset : ℕ}
    (hg : registersInTime s (.register termFunc key offset)) (ho : ¬ Over s.place) :
    Passed s.place key := by
  by_cases hl : s.lists = []
  · have hin := hg hl
    cases hp : s.place with
    | dynamic round k =>
      rw [hp] at hin ho
      by_cases hk : k ≤ pthreadTsdStart
      · exact .inl hk
      · exact .inr (hin.resolve_left fun hr => ho ⟨hr, by omega⟩)
    | body | static | done => trivial
  · obtain ⟨round, hp⟩ := h.place hl
    rw [hp]
    exact .inl (Nat.le_refl _)

theorem Invariant.register {s : State} (h : Invariant s) {termFunc key offset : ℕ}
    (he : Enabled s (.register termFunc key offset))
    (hg : registersInTime s (.register termFunc key offset)) :
    Invariant (next s (.register termFunc key offset)) := by
  have ht := getAddr_touched h.table h.heap he.2
  have hkeep : Invariant { s with tlv := (zPthreadTlvGetAddr s.tlv key).1 } := h.touch he
  simp only [next]
  split
  · next t b heq =>
    rw [heq] at ht hkeep
    have hr := atexit_registered ht.table ht.heap ⟨termFunc, b, offset⟩
    refine hkeep.mutate hr.table hr.heap hr.grows (fun e hmem => ?_) (.inl he.1)
    rw [hr.pending] at hmem
    rcases List.mem_append.mp hmem with hold | hnew
    · exact .inl hold
    · rw [List.mem_singleton.mp hnew]
      exact .inr fun ho => ⟨key, hr.grows key b (ht.result b rfl), passed_of_inTime h.toBase hg ho⟩
  · next t v hne heq =>
    rw [heq] at hkeep
    exact hkeep

theorem TableOk.terminators_cleared (h : TableOk s) :
    Sets s (s.setspecific s.terminatorsKey none) pthreadTsdStart none :=
  h.terminatorsKey ▸ setspecific_sets h.settable_terminators none

omit [CodeAddresses] in
theorem Grows.cleared (hs : Sets s t key none) (hk : ∀ b, s.slot key ≠ some (.buffer b)) :
    Grows s t := by
  intro k b hb
  rw [hs.slot, if_neg]
  · exact hb
  · rintro rfl
    exact hk b hb

theorem Base.finalizeNew {s : State} (h : Base s) (hl : s.lists ≠ []) :
    Invariant (finalizeNew s) := by
  obtain ⟨round, hplace⟩ := h.place hl
  have hover : ¬ Over s.place := by
    rw [hplace]
    intro ho
    exact absurd ho.2 (Nat.lt_irrefl _)
  have hkey := h.table.terminatorsKey
  unfold TlvCleanup.finalizeNew
  cases hslot : s.tlv.slot s.tlv.terminatorsKey with
  | none => exact ⟨h, fun _ _ => hkey ▸ hslot, fun _ hnil => absurd hnil hl⟩
  | some v =>
    obtain ⟨list, rfl⟩ := h.heap.terminators_slot h.table (hkey ▸ hslot)
    have hentries : pendingEntries s.tlv = list.entries := by rw [pendingEntries, hslot]
    have hs := h.table.terminators_cleared
    have hg : Grows s.tlv (s.tlv.setspecific s.tlv.terminatorsKey none) :=
      Grows.cleared hs fun b => by rw [← hkey, hslot]; simp
    have hnone : (s.tlv.setspecific s.tlv.terminatorsKey none).slot pthreadTsdStart = none := by
      rw [hs.slot, if_pos rfl]
    have hempty := pendingEntries_none hs hkey.symm
    refine ⟨⟨h.table.sets hs, h.heap.sets hs (by simp), ?_, ?_, ?_, h.ordered⟩, fun _ _ => hnone,
      fun _ hnil => by cases hnil⟩
    · intro l hmem e he
      rcases List.mem_cons.mp hmem with rfl | hmem
      · exact hg.held (h.pending hover e (hentries ▸ List.mem_reverse.mp he))
      · exact hg.held (h.frames l hmem e he)
    · intro _ e he
      rw [hempty] at he
      cases he
    · exact fun _ => ⟨round, hplace⟩

theorem next_ret (s : State) : next s .ret =
    if s.lists = [] then { s with busy := false, place := s.place.succ }
    else finalizeNew { s with busy := false } := by
  simp only [next]
  split
  · next hl => rw [if_pos hl]
  · next hl => rw [if_neg (by rw [hl]; simp)]

theorem Base.succ {s : State} (h : Base s) (hl : s.lists = [])
    (hempty : ∀ round, s.place = .dynamic round pthreadTsdStart → pendingEntries s.tlv = []) :
    Invariant { s with busy := false, place := s.place.succ } := by
  have hpassed : ∀ k, (∀ round, s.place ≠ .dynamic round pthreadTsdStart) → Passed s.place k →
      Passed s.place.succ k := by
    intro k hne hp
    cases hplace : s.place with
    | body => exact .inl (Nat.le_refl _)
    | dynamic round i =>
      rw [hplace] at hp
      rcases hp with hp | hp
      · have : i ≠ pthreadTsdStart := fun heq => hne round (heq ▸ hplace)
        exact .inl (by omega)
      · exact .inr (by omega)
    | static round i => trivial
    | done => trivial
  have hover : ¬ Over s.place.succ → ¬ Over s.place := by
    intro ho hover
    apply ho
    cases hplace : s.place with
    | body => rw [hplace] at hover; cases hover
    | dynamic round i => rw [hplace] at hover; exact ⟨hover.1, Nat.lt_succ_of_lt hover.2⟩
    | static round i => rw [hplace] at hover; exact hover
    | done => trivial
  refine ⟨⟨h.table, h.heap, ?_, ?_, fun hne => absurd hl hne, h.ordered⟩,
    fun hne => absurd hl hne, fun hbusy => by cases hbusy⟩
  · intro l hmem
    rw [hl] at hmem
    cases hmem
  · intro ho e he
    by_cases hp : ∃ round, s.place = .dynamic round pthreadTsdStart
    · obtain ⟨round, hp⟩ := hp
      rw [hempty round hp] at he
      cases he
    · obtain ⟨k, hk, hpk⟩ := h.pending (hover ho) e he
      exact ⟨k, hk, hpassed k (fun round hr => hp ⟨round, hr⟩) hpk⟩

theorem Invariant.ret {s : State} (h : Invariant s) (he : s.busy = true) :
    Invariant (next s .ret) := by
  rw [next_ret]
  split
  · next hl => exact h.toBase.succ hl fun round hp => absurd hp (h.user he hl round)
  · next hl =>
    exact Base.finalizeNew (s := { s with busy := false })
      ⟨h.table, h.heap, h.frames, h.pending, h.place, h.ordered⟩ hl

theorem Invariant.finalizeStep {s : State} (h : Invariant s) (hb : s.busy = false)
    {l : List Entry} {rest : List (List Entry)} (hl : s.lists = l :: rest) :
    Invariant (finalizeStep s l rest) := by
  have hne : s.lists ≠ [] := by rw [hl]; simp
  have hslot := h.drained hne hb
  obtain ⟨round, hplace⟩ := h.place hne
  have hempty : pendingEntries s.tlv = [] := by
    rw [pendingEntries, h.table.terminatorsKey, hslot]
  have hframes : ∀ i ∈ rest, ∀ e ∈ i, Held s.tlv s.place e :=
    fun i hi => h.frames i (hl ▸ List.mem_cons_of_mem _ hi)
  have hbusy : ¬ s.busy = true := by
    rw [hb]
    exact Bool.false_ne_true
  have hrest : ∀ e es, l = e :: es →
      Base { s with lists := es :: rest } := by
    rintro e es rfl
    refine ⟨h.table, h.heap, fun i hi => ?_, h.pending, fun _ => ⟨round, hplace⟩, h.ordered⟩
    rcases List.mem_cons.mp hi with rfl | hi
    · intro d hd
      exact h.frames _ (hl ▸ List.mem_cons_self) d (List.mem_cons_of_mem _ hd)
    · exact hframes i hi
  cases l with
  | nil =>
    cases rest with
    | nil =>
      have hs : Base { s with lists := [] } :=
        ⟨h.table, h.heap, by simp, h.pending, by simp, h.ordered⟩
      have := hs.succ rfl fun _ _ => hempty
      simp only [TlvCleanup.finalizeStep]
      rw [← hb] at this
      exact this
    | cons l' rest =>
      exact ⟨⟨h.table, h.heap, hframes, h.pending, fun _ => ⟨round, hplace⟩, h.ordered⟩,
        fun _ _ => hslot, fun ht => absurd ht hbusy⟩
  | cons e es =>
    have hs := hrest e es rfl
    simp only [TlvCleanup.finalizeStep]
    split
    · obtain ⟨k, hk, _⟩ := h.frames _ (hl ▸ List.mem_cons_self) e List.mem_cons_self
      refine ⟨⟨hs.table, hs.heap.ran e, hs.frames, hs.pending, hs.place,
        ordered_append h.ordered fun d hd => ?_⟩, fun _ ht => (by cases ht),
        fun _ hnil => (by cases hnil)⟩
      obtain rfl := Action.ran.inj hd
      exact h.heap.unfreed k _ hk
    · exact hs.finalizeNew (by simp)

theorem Base.clear {s : State} (h : Base s) (hl : s.lists = []) {t : Tlv} {key : ℕ}
    (hs : Sets s.tlv t key none) (hk : ∀ b, s.tlv.slot key ≠ some (.buffer b)) :
    Base { s with tlv := t } where
  table := h.table.sets hs
  heap := h.heap.sets hs (by simp)
  frames l hmem := by
    rw [hl] at hmem
    cases hmem
  pending ho e he := by
    by_cases hkey : key = s.tlv.terminatorsKey
    · rw [pendingEntries_none hs hkey] at he
      cases he
    · rw [pendingEntries_sets hs hkey] at he
      exact (Grows.cleared hs hk).held (h.pending ho e he)
  place := h.place
  ordered := h.ordered

theorem Base.free {s : State} (h : Base s) (hl : s.lists = []) {t : Tlv} {round key b : ℕ}
    (hplace : s.place = .dynamic round key) (hkey : pthreadTsdStart < key)
    (hb : s.tlv.slot key = some (.buffer b)) (hs : Sets s.tlv t key none) :
    Base { s with tlv := t, log := s.log ++ [.freed b] } where
  table := h.table.sets hs
  heap := h.heap.free hb hs
  frames l hmem := by
    rw [hl] at hmem
    cases hmem
  pending ho e he := by
    rw [pendingEntries_sets hs (by rw [h.table.terminatorsKey]; omega)] at he
    obtain ⟨k, hk, hp⟩ := h.pending ho e he
    refine ⟨k, ?_, hp⟩
    rw [hplace] at hp
    have hlt : k < key := hp.resolve_left (by omega)
    rw [hs.slot, if_neg (by omega)]
    exact hk
  place := h.place
  ordered := ordered_append h.ordered fun e he => by cases he

def Visits (place : Place) (key : ℕ) : Prop :=
  (∃ round, place = .dynamic round key) ∨
    (∃ round, place = .static round key) ∧ key < pthreadTsdStart

omit [CodeAddresses] in
theorem Visits.dynamic {place : Place} (h : Visits place key) (hk : pthreadTsdStart ≤ key) :
    ∃ round, place = .dynamic round key :=
  h.resolve_right fun hlt => absurd hlt.2 (Nat.not_lt.mpr hk)

omit [CodeAddresses] in
theorem Visits.key_eq {place : Place} (h : Visits place key) {round j : ℕ}
    (hp : place = .dynamic round j) : key = j := by
  rcases h with ⟨r, hr⟩ | ⟨⟨r, hr⟩, _⟩
  · rw [hr] at hp
    exact (Place.dynamic.inj hp).2
  · rw [hr] at hp
    cases hp

theorem Base.passKey {s : State} (h : Base s) (hb : s.busy = false) (hl : s.lists = [])
    (hv : Visits s.place key)
    (hnone : key = pthreadTsdStart → s.tlv.slot pthreadTsdStart = none) :
    Invariant { s with place := s.place.succ } := by
  have hsucc := h.succ hl fun round hp => by
    rw [pendingEntries, h.table.terminatorsKey, hnone (hv.key_eq hp)]
  rw [← hb] at hsucc
  exact hsucc

theorem Invariant.takeList {s : State} (h : Invariant s) (hb : s.busy = false)
    (hl : s.lists = []) {round : ℕ} (hp : s.place = .dynamic round pthreadTsdStart)
    {list : TerminatorList} (hv : s.tlv.slot pthreadTsdStart = some (.terminators list))
    {t : Tlv} (hs : Sets s.tlv t pthreadTsdStart none) :
    Invariant { s with tlv := t, lists := [list.entries.reverse] } := by
  have hnobuffer : ∀ b, s.tlv.slot pthreadTsdStart ≠ some (.buffer b) := by
    intro b hb
    rw [hv] at hb
    cases hb
  have hbase := h.toBase.clear hl hs hnobuffer
  have hover : ¬ Over s.place := by
    rw [hp]
    intro ho
    exact absurd ho.2 (Nat.lt_irrefl _)
  have hentries : pendingEntries s.tlv = list.entries := by
    rw [pendingEntries, h.table.terminatorsKey, hv]
  have hframes : ∀ l ∈ [list.entries.reverse], ∀ e ∈ l, Held t s.place e := by
    intro l hmem e he
    rw [List.mem_singleton.mp hmem] at he
    have hpending : e ∈ pendingEntries s.tlv := hentries ▸ List.mem_reverse.mp he
    exact (Grows.cleared hs hnobuffer).held (h.pending hover e hpending)
  have hnone : t.slot pthreadTsdStart = none := by rw [hs.slot, if_pos rfl]
  exact ⟨⟨hbase.table, hbase.heap, hframes, hbase.pending, fun _ => ⟨round, hp⟩, hbase.ordered⟩,
    fun _ _ => hnone, fun hbusy => by rw [hb] at hbusy; cases hbusy⟩

theorem Base.callUser {s : State} (h : Base s) (hl : s.lists = []) (hv : Visits s.place key)
    (hne : key ≠ pthreadTsdStart) : Invariant { s with busy := true } :=
  ⟨⟨h.table, h.heap, h.frames, h.pending, h.place, h.ordered⟩, fun hnil => absurd hl hnil,
    fun _ _ _ hp => hne (hv.key_eq hp)⟩

theorem HeapOk.image_slot (hh : HeapOk s log) (h : TableOk s) (hk : key ∈ imageKeys s)
    {v : Value} (hv : s.slot key = some v) : ∃ b, v = .buffer b := by
  have hbelongs := hh.values key v hv
  cases v with
  | buffer b => exact ⟨b, rfl⟩
  | terminators list => exact absurd hbelongs (h.images key hk).2.1
  | user n => exact absurd hk hbelongs.2

theorem Invariant.visit {s : State} (h : Invariant s) (hb : s.busy = false) (hl : s.lists = [])
    {key : ℕ} (hvisits : Visits s.place key) : Invariant (visit s key) := by
  unfold TlvCleanup.visit
  rcases cleanupKey_cases s.tlv.tsd () key with ⟨v, _, hv, hc⟩ | ⟨hdead, hc⟩
  · rw [hc]
    have hs := cleared_sets s.tlv key
    by_cases hfinal : key = pthreadTsdStart
    · subst hfinal
      obtain ⟨round, hp⟩ := hvisits.dynamic (Nat.le_refl _)
      obtain ⟨list, rfl⟩ := h.heap.terminators_slot h.table hv
      have hdest : ~~~s.tlv.tsd.keys pthreadTsdStart = tlvFinalize := by
        rw [h.table.finalizer, BitVec.not_not]
      rw [if_pos (hdest ▸ finalize_ne_null)]
      simp only [hdest, if_true]
      exact h.takeList hb hl hp hv hs
    · by_cases himage : key ∈ imageKeys s.tlv
      · obtain ⟨hdyn, _, hkeys⟩ := h.table.images key himage
        obtain ⟨round, hp⟩ := hvisits.dynamic hdyn.1
        obtain ⟨b, rfl⟩ := h.heap.image_slot h.table himage hv
        have hdest : ~~~s.tlv.tsd.keys key = tlvFree := by rw [hkeys, BitVec.not_not]
        have hne : tlvFree ≠ tlvFinalize := free_ne_finalize
        rw [if_pos (hdest ▸ free_ne_null)]
        simp only [hdest, if_neg hne, if_true]
        have hlt : pthreadTsdStart < key := Nat.lt_of_le_of_ne hdyn.1 (Ne.symm hfinal)
        exact (h.toBase.free hl hp hlt hv hs).passKey hb hl hvisits fun heq => absurd heq hfinal
      · obtain ⟨hnf, hnfree⟩ := h.table.others key hfinal himage
        have hbase := h.toBase.clear hl hs fun b hb => himage (h.heap.values key _ hb)
        have hdest : ∀ d : BitVec 64, s.tlv.tsd.keys key ≠ ~~~d → ~~~s.tlv.tsd.keys key ≠ d :=
          fun d hd heq => hd (by rw [← heq, BitVec.not_not])
        split_ifs
        · simp only [if_neg (hdest _ hnf), if_neg (hdest _ hnfree)]
          exact hbase.callUser hl hvisits hfinal
        · exact hbase.passKey hb hl hvisits fun heq => absurd heq hfinal
  · rw [hc]
    exact h.toBase.passKey hb hl hvisits fun heq => heq ▸ hdead (heq ▸ h.table.live)

theorem Invariant.move {s : State} (h : Invariant s) (hb : s.busy = false) (hl : s.lists = [])
    {place : Place} (hover : ¬ Over place → ¬ Over s.place) (hpassed : ∀ k, Passed place k) :
    Invariant { s with place := place } where
  table := h.table
  heap := h.heap
  frames l hmem := by
    rw [hl] at hmem
    cases hmem
  pending ho e he := by
    obtain ⟨k, hk, _⟩ := h.pending (hover ho) e he
    exact ⟨k, hk, hpassed k⟩
  place hne := absurd hl hne
  ordered := h.ordered
  drained hne := absurd hl hne
  user hbusy := by
    rw [hb] at hbusy
    cases hbusy

theorem Invariant.scanStep {s : State} (h : Invariant s) (hb : s.busy = false)
    (hl : s.lists = []) : Invariant (scanStep s s.place) := by
  cases hp : s.place with
  | body => exact h
  | done => exact h
  | dynamic round key =>
    simp only [TlvCleanup.scanStep]
    split
    · exact h.visit hb hl (.inl ⟨round, hp⟩)
    · exact h.move hb hl (fun ho hover => ho (hp ▸ hover).1) fun _ => trivial
  | static round key =>
    simp only [TlvCleanup.scanStep]
    split
    · next hle => exact h.visit hb hl (.inr ⟨⟨round, hp⟩, Nat.lt_of_le_of_lt hle (by decide)⟩)
    · split
      · next hround =>
        refine h.move hb hl (fun _ hover => ?_) fun _ => .inl (Nat.le_refl _)
        rw [hp] at hover
        exact absurd hover (by simp only [Over]; omega)
      · have hslot : ∀ k,
            ({ s.tlv with tsd := resetMax s.tlv.tsd () } : Tlv).slot k = s.tlv.slot k := fun _ => by
          simp only [Tlv.slot, zPthreadGetspecific, resetMax, setThread_tsd, if_true]
        refine Invariant.move (s := { s with tlv := { s.tlv with tsd := resetMax s.tlv.tsd () } })
          (h.mutate ?_ ?_ (fun k b hb => (hslot k).trans hb) (fun e he => .inl ?_)
            (.inr (hslot _))) hb hl (fun ho => absurd trivial ho) fun _ => trivial
        · exact ⟨h.table.terminatorsKey, h.table.finalizer, h.table.images, h.table.others⟩
        · refine ⟨fun k v hv => h.heap.values k v (hslot k ▸ hv), fun k hk hdead => ?_,
            fun k b hb => h.heap.fresh k b (hslot k ▸ hb), fun k j b hk hj => ?_,
            fun k b hb => h.heap.unfreed k b (hslot k ▸ hb), h.heap.old⟩
          · exact (hslot k).trans (h.heap.dead k hk hdead)
          · exact h.heap.distinct k j b (hslot k ▸ hk) (hslot j ▸ hj)
        · rw [pendingEntries, hslot] at he
          exact he

omit [CodeAddresses] in
theorem create_first {s : TsdKeys.State Unit Value} (h : s.keys pthreadTsdStart = 0#64)
    (destructor : BitVec 64) : zPthreadKeyCreate s destructor =
      ({ s with keys := Function.update s.keys pthreadTsdStart (~~~destructor) }, 0,
        some pthreadTsdStart) := by
  have hloop : ∀ n, createLoop s.keys destructor (n + 1) pthreadTsdStart =
      some (pthreadTsdStart, Function.update s.keys pthreadTsdStart (~~~destructor)) := fun n => by
    simp only [createLoop, zPthreadKeySetDestructor, h, if_true]
  unfold zPthreadKeyCreate
  rw [show pthreadTsdEnd - pthreadTsdStart = 511 + 1 from rfl, hloop]

theorem first_invariant {t : Tlv} (hterm : t.terminatorsKey = pthreadTsdStart)
    (hfinal : t.tsd.keys pthreadTsdStart = ~~~tlvFinalize)
    (hkeys : ∀ k, k ≠ pthreadTsdStart → t.tsd.keys k = 0#64) (himages : t.images = [])
    (hslot : ∀ k v, t.slot k = some v → k < pthreadTsdFirst ∧ ∃ n, v = .user n) :
    Invariant ⟨t, .body, [], true, []⟩ := by
  have hnone : ∀ k, pthreadTsdStart ≤ k → t.slot k = none := by
    intro k hk
    by_contra hne
    obtain ⟨v, hv⟩ := Option.ne_none_iff_exists'.mp hne
    have hlt := (hslot k v hv).1
    simp only [pthreadTsdStart, pthreadTsdFirst] at hk hlt
    omega
  have hnobuffer : ∀ k b, t.slot k ≠ some (.buffer b) := by
    intro k b hb
    obtain ⟨n, hn⟩ := (hslot k _ hb).2
    cases hn
  have hempty : imageKeys t = [] := by rw [imageKeys, himages, List.map_nil]
  have hpending : pendingEntries t = [] := by
    rw [pendingEntries, hterm, hnone _ (Nat.le_refl _)]
  constructor
  · refine ⟨⟨hterm, hfinal, fun k hk => ?_, fun k hk _ => ?_⟩,
      ⟨fun k v hv => ?_, fun k hk _ => hnone k hk.1, fun k b hb => absurd hb (hnobuffer k b),
        fun k j b hb => absurd hb (hnobuffer k b), by simp, by simp⟩,
      by simp, fun _ e he => ?_, by simp, ?_⟩
    · rw [hempty] at hk
      cases hk
    · rw [hkeys k hk]
      exact ⟨finalize_kept.symm, free_kept.symm⟩
    · obtain ⟨hlt, n, rfl⟩ := hslot k v hv
      have hne : k ≠ pthreadTsdStart := by
        simp only [pthreadTsdStart, pthreadTsdFirst] at hlt ⊢
        omega
      refine ⟨hne, ?_⟩
      rw [hempty]
      exact List.not_mem_nil
    · rw [hpending] at he
      cases he
    · intro l₁ e l₂ heq
      simp at heq
  · intro hne
    exact absurd rfl hne
  · exact fun _ _ round hp => by cases hp

theorem Unused.invariant {t : Tlv} (h : Unused t) (image : Option ℕ) :
    Invariant ⟨zPthreadTlvInitializer t image, .body, [], true, []⟩ := by
  have hfirst : zPthreadTlvInitializer t none =
      { t with
        tsd := { t.tsd with
          keys := Function.update t.tsd.keys pthreadTsdStart (~~~tlvFinalize) }
        terminatorsKey := pthreadTsdStart } := by
    simp only [zPthreadTlvInitializer, create_first (h.keys.keys _), Option.getD_some]
  have hkeys : ∀ k, k ≠ pthreadTsdStart →
      (zPthreadTlvInitializer t none).tsd.keys k = 0#64 := by
    intro k hk
    rw [hfirst]
    exact (Function.update_of_ne hk _ _).trans (h.keys.keys k)
  have hinit : Invariant ⟨zPthreadTlvInitializer t none, .body, [], true, []⟩ := by
    refine first_invariant ?_ ?_ hkeys ?_ fun k v hv => ?_
    · rw [hfirst]
    · rw [hfirst]
      simp only [Function.update_self]
    · rw [hfirst]
      exact h.images
    · rw [hfirst] at hv
      refine ⟨Nat.lt_of_not_le fun hle => ?_, h.reserved k v hv⟩
      have hnone := h.keys.tsd () k hle
      rw [show (t.tsd.thread ()).tsd k = some v from hv] at hnone
      cases hnone
  cases image with
  | none => exact hinit
  | some size =>
    refine hinit.loadImage (show Enabled _ (.loadImage size) from ?_)
    rcases create_cases (zPthreadTlvInitializer t none).tsd tlvFree with
      ⟨k, _, _, hc⟩ | ⟨hall, _⟩
    · rw [Enabled, hc]
    · exact absurd (hkeys _ (by decide)) (hall (pthreadTsdStart + 1) (by decide))

theorem initializer_thread (t : Tlv) (image : Option ℕ) :
    (zPthreadTlvInitializer t image).tsd.thread = t.tsd.thread := by
  cases image with
  | none => exact create_thread _ _
  | some size => exact (create_thread _ _).trans (create_thread _ _)

theorem Unused.pending {t : Tlv} (h : Unused t) (image : Option ℕ) :
    pendingEntries (zPthreadTlvInitializer t image) = [] := by
  have hkey := (h.invariant image).table.terminatorsKey
  have hslot : (zPthreadTlvInitializer t image).slot pthreadTsdStart = none := by
    rw [Tlv.slot, zPthreadGetspecific, initializer_thread]
    exact h.keys.tsd () _ (by decide)
  rw [pendingEntries, show (zPthreadTlvInitializer t image).terminatorsKey = _ from hkey, hslot]

theorem invariant_inductive : Inductive tlvSystem registersInTime Invariant where
  initial s hs := by
    obtain ⟨t, image, ht, rfl⟩ := hs
    exact ht.invariant image
  step s e h he hg := by
    cases e with
    | loadImage size => exact h.loadImage he
    | createKey destructor => exact h.createKey he
    | setspecific key value => exact h.setspecific he
    | touch key => exact h.touch he
    | register termFunc key offset => exact h.register he hg
    | ret => exact h.ret he
    | tick =>
      change Invariant (next s .tick)
      simp only [next]
      split
      · next hl => exact h.scanStep he hl
      · next l rest hl => exact h.finalizeStep he hl

theorem terminators_before_free {s : State} (h : ReachableUnder tlvSystem registersInTime s) :
    Ordered s.log :=
  (invariant_inductive.reachable h).ordered

instance (s : State) (e : Event) : Decidable (tlvSystem.Enabled s e) := by
  change Decidable (Enabled s e)
  cases e <;> unfold Enabled <;> infer_instance

instance (s : State) (e : Event) : Decidable (registersInTime s e) := by
  cases e <;> unfold registersInTime <;> try infer_instance
  cases s.place <;> infer_instance

end

local instance : CodeAddresses := placed

def unusedTlv : Tlv := ⟨zeroed, 0, [], 0⟩

theorem unusedTlv_unused : Unused unusedTlv :=
  ⟨zeroed_initial, fun _ _ h => (by cases h), rfl⟩

def start : State := ⟨zPthreadTlvInitializer unusedTlv none, .body, [], true, []⟩

theorem start_initial : tlvSystem.Initial start := ⟨unusedTlv, none, unusedTlv_unused, rfl⟩

/-- The image has the smaller key, and the user's destructor registers a terminator for it. -/
def imageFirst : List Event :=
  [.loadImage 8, .createKey 0x2000#64, .setspecific 258 (some 5), .touch 257, .ret,
    .tick, .tick, .tick, .register 0x3000 257 0, .ret, .tick, .tick, .tick, .tick, .tick,
    .ret, .tick, .tick]

theorem imageFirst_ordered : Ordered (runTrace tlvSystem start imageFirst).log :=
  terminators_before_free (valid_trace_reachable start_initial (by decide))

/-- The image has the larger key: its buffer is freed in the round of the registration. -/
def imageLast : List Event :=
  [.createKey 0x2000#64, .loadImage 8, .setspecific 257 (some 5), .ret,
    .tick, .tick, .register 0x3000 258 0, .ret, .tick, .tick, .tick, .tick, .tick, .tick]

theorem terminator_runs_after_free :
    Reachable tlvSystem (runTrace tlvSystem start imageLast) ∧
      (runTrace tlvSystem start imageLast).log = [.freed 0, .ran ⟨0x3000, 0, 0⟩] ∧
      ¬ Ordered (runTrace tlvSystem start imageLast).log := by
  have hlog : (runTrace tlvSystem start imageLast).log = [.freed 0, .ran ⟨0x3000, 0, 0⟩] := by
    decide
  refine ⟨valid_trace_reachable start_initial (by decide), hlog, fun h => ?_⟩
  exact h [.freed 0] ⟨0x3000, 0, 0⟩ [] hlog List.mem_cons_self

end TlvCleanup
