import LibSystemCall.TlvTerminators
import LibSystemCall.TsdCleanup

/-! # Terminators and buffers during the cleanup of a thread

The loops of `z_pthread_tsd_cleanup_new` key by key, with `z_pthread_tlv_finalize_list` one
entry at a time, and user code between them: the thread's routine, the destructors of the
user's keys and the terminators. -/
namespace TlvCleanup

open GuardedSystem TsdKeys TsdCleanup TlvTerminators

/-- Where the thread is; a loop has reached `key` in a round. -/
inductive Place where
  | body
  | dynamic (round key : ℕ)
  | static (round key : ℕ)
  | done
  deriving DecidableEq

inductive Action where
  | ran (entry : Entry)
  | freed (buffer : ℕ)
  deriving DecidableEq

/-- `lists` are the entries left in the calls of `z_pthread_tlv_finalize_list`, the innermost
first; `busy` while user code runs. -/
structure State where
  tlv : Tlv
  place : Place
  lists : List (List Entry)
  busy : Bool
  log : List Action

inductive Event where
  | loadImage (size : ℕ)
  | createKey (destructor : BitVec 64)
  | setspecific (key : ℕ) (value : Option ℕ)
  | touch (key : ℕ)
  | register (termFunc key offset : ℕ)
  | ret
  | tick
  deriving DecidableEq

def imageKeys (s : Tlv) : List ℕ := s.images.map Image.key

variable [CodeAddresses]

/-- User code stores only under the user's keys. -/
def Enabled (s : State) : Event → Prop
  | .loadImage _ => (zPthreadKeyCreate s.tlv.tsd tlvFree).2.1 = 0
  | .createKey destructor => destructor ≠ tlvFinalize ∧ destructor ≠ tlvFree
  | .setspecific key _ =>
    s.busy = true ∧ key ≠ s.tlv.terminatorsKey ∧ key ∉ imageKeys s.tlv
  | .touch key => s.busy = true ∧ key ∈ imageKeys s.tlv
  | .register _ key _ => s.busy = true ∧ key ∈ imageKeys s.tlv
  | .ret => s.busy = true
  | .tick => s.busy = false

/-- After a destructor, or the routine of the thread. -/
def Place.succ : Place → Place
  | .body => .dynamic 0 pthreadTsdStart
  | .dynamic round key => .dynamic round (key + 1)
  | .static round key => .static round (key + 1)
  | .done => .done

/-- After an entry: a list begun in the meantime is finalized at once. -/
def finalizeNew (s : State) : State :=
  match s.tlv.slot s.tlv.terminatorsKey with
  | some (.terminators list) =>
    { s with
      tlv := s.tlv.setspecific s.tlv.terminatorsKey none
      lists := list.entries.reverse :: s.lists }
  | _ => s

def finalizeStep (s : State) : List Entry → List (List Entry) → State
  | [], [] => { s with lists := [], place := s.place.succ }
  | [], l :: rest => { s with lists := l :: rest }
  | e :: es, rest =>
    if e.termFunc ≠ 0 then
      { s with lists := es :: rest, busy := true, log := s.log ++ [.ran e] }
    else finalizeNew { s with lists := es :: rest }

/-- `z_pthread_tsd_cleanup_key` up to the first user code that it calls. -/
def visit (s : State) (key : ℕ) : State :=
  match zPthreadTsdCleanupKey s.tlv.tsd () key with
  | (tsd, none) => { s with tlv := { s.tlv with tsd := tsd }, place := s.place.succ }
  | (tsd, some (destructor, value)) =>
    let s := { s with tlv := { s.tlv with tsd := tsd } }
    if destructor = tlvFinalize then
      match value with
      | .terminators list => { s with lists := [list.entries.reverse] }
      | _ => { s with place := s.place.succ }
    else if destructor = tlvFree then
      match value with
      | .buffer b => { s with place := s.place.succ, log := s.log ++ [.freed b] }
      | _ => { s with place := s.place.succ }
    else { s with busy := true }

def scanStep (s : State) : Place → State
  | .dynamic round key =>
    if key ≤ (s.tlv.tsd.thread ()).maxTsdKey then visit s key
    else { s with place := .static round pthreadTsdFirst }
  | .static round key =>
    if key ≤ pthreadTsdMax then visit s key
    else if round + 1 < pthreadDestructorIterations then
      { s with place := .dynamic (round + 1) pthreadTsdStart }
    else { s with place := .done, tlv := { s.tlv with tsd := resetMax s.tlv.tsd () } }
  | _ => s

def next (s : State) : Event → State
  | .loadImage size => { s with tlv := zPthreadTlvInitializeDescriptors s.tlv size }
  | .createKey destructor =>
    { s with tlv := { s.tlv with tsd := (zPthreadKeyCreate s.tlv.tsd destructor).1 } }
  | .setspecific key value => { s with tlv := s.tlv.setspecific key (value.map .user) }
  | .touch key => { s with tlv := (zPthreadTlvGetAddr s.tlv key).1 }
  | .register termFunc key offset =>
    match zPthreadTlvGetAddr s.tlv key with
    | (tlv, some (.buffer b)) => { s with tlv := zPthreadTlvAtexit tlv ⟨termFunc, b, offset⟩ }
    | (tlv, _) => { s with tlv := tlv }
  | .ret =>
    match s.lists with
    | [] => { s with busy := false, place := s.place.succ }
    | _ :: _ => finalizeNew { s with busy := false }
  | .tick =>
    match s.lists with
    | [] => scanStep s s.place
    | l :: rest => finalizeStep s l rest

structure Unused (s : Tlv) : Prop where
  keys : TsdKeys.Initial s.tsd
  reserved : ∀ k v, s.slot k = some v → ∃ n, v = .user n
  images : s.images = []

def Initial (s : State) : Prop :=
  ∃ tlv image, Unused tlv ∧ s = ⟨zPthreadTlvInitializer tlv image, .body, [], true, []⟩

def tlvSystem : System State Event := ⟨Initial, Enabled, next⟩

def Ordered (log : List Action) : Prop :=
  ∀ l₁ e l₂, log = l₁ ++ .ran e :: l₂ → .freed e.buffer ∉ l₁

/-- A destructor of a user's key registers terminators only for images whose keys the round
has passed, until the last round. -/
def registersInTime (s : State) : Event → Prop
  | .register _ key _ =>
    s.lists = [] → match s.place with
      | .dynamic round k => pthreadDestructorIterations ≤ round + 1 ∨ key < k
      | _ => True
  | _ => True

/-! The key table: the terminators, the images and the user's keys. -/

structure TableOk (s : Tlv) : Prop where
  terminatorsKey : s.terminatorsKey = pthreadTsdStart
  finalizer : s.tsd.keys pthreadTsdStart = ~~~tlvFinalize
  images : ∀ k ∈ imageKeys s, Dynamic k ∧ k ≠ pthreadTsdStart ∧ s.tsd.keys k = ~~~tlvFree
  others : ∀ k, k ≠ pthreadTsdStart → k ∉ imageKeys s →
    s.tsd.keys k ≠ ~~~tlvFinalize ∧ s.tsd.keys k ≠ ~~~tlvFree

variable {s t : Tlv} {key : ℕ} {value : Option Value}

theorem TableOk.live (h : TableOk s) : Live s.tsd pthreadTsdStart := by
  rw [Live, h.finalizer]
  exact finalize_kept

theorem TableOk.live_image (h : TableOk s) (hk : key ∈ imageKeys s) : Live s.tsd key := by
  rw [Live, (h.images key hk).2.2]
  exact free_kept

omit [CodeAddresses] in
theorem settable_of_live (hk : Dynamic key) (hl : Live s.tsd key) : Settable s.tsd key :=
  ⟨Nat.le_trans (by decide) hk.1, hk.2, .inr hl⟩

theorem TableOk.settable_terminators (h : TableOk s) : Settable s.tsd s.terminatorsKey := by
  rw [h.terminatorsKey]
  exact settable_of_live (by decide) h.live

omit [CodeAddresses] in
theorem imageKeys_sets (hs : Sets s t key value) : imageKeys t = imageKeys s := by
  rw [imageKeys, hs.images, imageKeys]

theorem TableOk.sets (h : TableOk s) (hs : Sets s t key value) : TableOk t := by
  have hdyn : ∀ k, pthreadTsdStart ≤ k → t.tsd.keys k = s.tsd.keys k :=
    fun k hk => (hs.keys k).resolve_right fun hlt => absurd hlt.1 (by omega)
  constructor
  · rw [hs.terminatorsKey, h.terminatorsKey]
  · rw [hdyn _ (Nat.le_refl _), h.finalizer]
  · intro k hk
    rw [imageKeys_sets hs] at hk
    obtain ⟨hd, hne, hkeys⟩ := h.images k hk
    exact ⟨hd, hne, by rw [hdyn k hd.1, hkeys]⟩
  · intro k hne hk
    rw [imageKeys_sets hs] at hk
    rcases hs.keys k with hsame | ⟨_, hall⟩
    · rw [hsame]
      exact h.others k hne hk
    · rw [hall]
      exact ⟨fun heq => finalize_ne_null (BitVec.not_inj.mp heq).symm,
        fun heq => free_ne_null (BitVec.not_inj.mp heq).symm⟩

theorem TableOk.createKey (h : TableOk s) {destructor : BitVec 64} {k : ℕ}
    (hk : ¬ Live s.tsd k) (hd : destructor ≠ tlvFinalize ∧ destructor ≠ tlvFree) :
    TableOk { s with
      tsd := { s.tsd with keys := Function.update s.tsd.keys k (~~~destructor) } } := by
  have hne : ∀ {j}, Live s.tsd j → j ≠ k := fun hj heq => hk (heq ▸ hj)
  have hnot : ∀ {d : BitVec 64}, destructor ≠ d → ~~~destructor ≠ ~~~d :=
    fun hdd heq => hdd (by simpa using congrArg (~~~ ·) heq)
  refine ⟨h.terminatorsKey, ?_, fun j hj => ?_, fun j hj hi => ?_⟩
  · exact (Function.update_of_ne (hne h.live) _ _).trans h.finalizer
  · obtain ⟨hdyn, hj256, hkeys⟩ := h.images j hj
    exact ⟨hdyn, hj256, (Function.update_of_ne (hne (h.live_image hj)) _ _).trans hkeys⟩
  · by_cases hjk : j = k
    · subst hjk
      simp only [Function.update_self]
      exact ⟨hnot hd.1, hnot hd.2⟩
    · simp only [Function.update_of_ne hjk]
      exact h.others j hj hi

theorem TableOk.loadImage (h : TableOk s) {k size : ℕ} (hk : ¬ Live s.tsd k) (hd : Dynamic k) :
    TableOk { s with
      tsd := { s.tsd with keys := Function.update s.tsd.keys k (~~~tlvFree) }
      images := s.images ++ [⟨k, size⟩] } := by
  have hne : ∀ {j}, Live s.tsd j → j ≠ k := fun hj heq => hk (heq ▸ hj)
  refine ⟨h.terminatorsKey, ?_, fun j hj => ?_, fun j hj hi => ?_⟩
  · exact (Function.update_of_ne (hne h.live) _ _).trans h.finalizer
  · simp only [imageKeys, List.map_append, List.mem_append, List.map_cons, List.map_nil,
      List.mem_singleton] at hj
    rcases hj with hj | rfl
    · obtain ⟨hdyn, hj256, hkeys⟩ := h.images j hj
      exact ⟨hdyn, hj256, (Function.update_of_ne (hne (h.live_image hj)) _ _).trans hkeys⟩
    · exact ⟨hd, fun heq => hk (heq ▸ h.live), Function.update_self _ _ _⟩
  · simp only [imageKeys, List.map_append, List.mem_append, List.map_cons, List.map_nil,
      List.mem_singleton, not_or] at hi
    simp only [Function.update_of_ne hi.2]
    exact h.others j hj hi.1

def Belongs (s : Tlv) (key : ℕ) : Value → Prop
  | .buffer _ => key ∈ imageKeys s
  | .terminators _ => key = pthreadTsdStart
  | .user _ => key ≠ pthreadTsdStart ∧ key ∉ imageKeys s

structure HeapOk (s : Tlv) (log : List Action) : Prop where
  values : ∀ k v, s.slot k = some v → Belongs s k v
  dead : ∀ k, Dynamic k → ¬ Live s.tsd k → s.slot k = none
  fresh : ∀ k b, s.slot k = some (.buffer b) → b < s.nextBuffer
  distinct : ∀ k j b, s.slot k = some (.buffer b) → s.slot j = some (.buffer b) → k = j
  unfreed : ∀ k b, s.slot k = some (.buffer b) → .freed b ∉ log
  old : ∀ b, .freed b ∈ log → b < s.nextBuffer

variable {log : List Action}

omit [CodeAddresses] in
theorem HeapOk.sets (h : HeapOk s log) (hs : Sets s t key value)
    (hv : ∀ v, value = some v → Belongs s key v ∧ (∀ b, v ≠ .buffer b) ∧
      (Dynamic key → Live s.tsd key)) : HeapOk t log := by
  have hbuffer : ∀ {k b}, t.slot k = some (.buffer b) → k ≠ key ∧ s.slot k = some (.buffer b) := by
    intro k b hb
    rw [hs.slot] at hb
    split at hb
    · exact absurd rfl ((hv _ hb).2.1 b)
    · next hk => exact ⟨hk, hb⟩
  constructor
  · intro k v hkv
    have hbelongs : Belongs s k v := by
      rw [hs.slot] at hkv
      split at hkv
      · next hk => exact hk ▸ (hv v hkv).1
      · exact h.values k v hkv
    cases v <;> simpa only [Belongs, imageKeys_sets hs] using hbelongs
  · intro k hk hdead
    have hkeys : t.tsd.keys k = s.tsd.keys k :=
      (hs.keys k).resolve_right fun hlt => absurd hk.1 (by omega)
    rw [Live, hkeys] at hdead
    rw [hs.slot]
    split
    · next heq =>
      subst heq
      cases value with
      | none => rfl
      | some v => exact absurd ((hv v rfl).2.2 hk) hdead
    · exact h.dead k hk hdead
  · intro k b hb
    rw [hs.nextBuffer]
    exact h.fresh k b (hbuffer hb).2
  · intro k j b hk hj
    exact h.distinct k j b (hbuffer hk).2 (hbuffer hj).2
  · intro k b hb
    exact h.unfreed k b (hbuffer hb).2
  · rw [hs.nextBuffer]
    exact h.old

omit [CodeAddresses] in
theorem HeapOk.alloc (h : HeapOk s log) (hk : key ∈ imageKeys s) (hl : Live s.tsd key)
    (hs : Sets { s with nextBuffer := s.nextBuffer + 1 } t key (some (.buffer s.nextBuffer))) :
    HeapOk t log := by
  have hslot : ∀ k, t.slot k = if k = key then some (.buffer s.nextBuffer) else s.slot k := hs.slot
  have hbuffer : ∀ {k b}, t.slot k = some (.buffer b) →
      k = key ∧ b = s.nextBuffer ∨ k ≠ key ∧ s.slot k = some (.buffer b) := by
    intro k b hb
    rw [hslot] at hb
    split at hb
    · next heq => exact .inl ⟨heq, by simpa using hb.symm⟩
    · next hk => exact .inr ⟨hk, hb⟩
  have hold : ∀ {k}, s.slot k ≠ some (.buffer s.nextBuffer) :=
    fun hb => absurd (h.fresh _ _ hb) (Nat.lt_irrefl _)
  have himages : imageKeys t = imageKeys s := by rw [imageKeys, hs.images, imageKeys]
  constructor
  · intro k v hkv
    have hbelongs : Belongs s k v := by
      rw [hslot] at hkv
      split at hkv
      · next heq =>
        obtain rfl := Option.some.inj hkv
        exact heq ▸ hk
      · exact h.values k v hkv
    cases v <;> simpa only [Belongs, himages] using hbelongs
  · intro k hkd hdead
    have hkeys : t.tsd.keys k = s.tsd.keys k :=
      (hs.keys k).resolve_right fun hlt => absurd hkd.1 (by omega)
    rw [Live, hkeys] at hdead
    have hne : k ≠ key := fun heq => hdead (heq ▸ hl)
    rw [hslot, if_neg hne]
    exact h.dead k hkd hdead
  · intro k b hb
    rw [hs.nextBuffer]
    rcases hbuffer hb with ⟨_, rfl⟩ | ⟨_, hb⟩
    · exact Nat.lt_succ_self _
    · exact Nat.lt_succ_of_lt (h.fresh k b hb)
  · intro k j b hkb hjb
    rcases hbuffer hkb with ⟨rfl, rfl⟩ | ⟨_, hkb⟩
    · rcases hbuffer hjb with ⟨rfl, _⟩ | ⟨_, hjb⟩
      · rfl
      · exact absurd hjb hold
    · rcases hbuffer hjb with ⟨_, rfl⟩ | ⟨_, hjb⟩
      · exact absurd hkb hold
      · exact h.distinct k j b hkb hjb
  · intro k b hb hfreed
    rcases hbuffer hb with ⟨_, rfl⟩ | ⟨_, hb⟩
    · exact absurd (h.old _ hfreed) (Nat.lt_irrefl _)
    · exact h.unfreed k b hb hfreed
  · intro b hb
    rw [hs.nextBuffer]
    exact Nat.lt_succ_of_lt (h.old b hb)

omit [CodeAddresses] in
theorem HeapOk.free (h : HeapOk s log) {b : ℕ} (hb : s.slot key = some (.buffer b))
    (hs : Sets s t key none) : HeapOk t (log ++ [.freed b]) := by
  have ht := h.sets hs (by simp)
  refine ⟨ht.values, ht.dead, ht.fresh, ht.distinct, ?_, ?_⟩
  · intro k c hc hfreed
    rcases List.mem_append.mp hfreed with hfreed | hfreed
    · exact ht.unfreed k c hc hfreed
    · obtain rfl : c = b := by simpa using hfreed
      rw [hs.slot] at hc
      split at hc
      · cases hc
      · next hk => exact hk (h.distinct k key c hc hb)
  · intro c hfreed
    rw [hs.nextBuffer]
    rcases List.mem_append.mp hfreed with hfreed | hfreed
    · exact h.old c hfreed
    · obtain rfl : c = b := by simpa using hfreed
      exact h.fresh key c hb

omit [CodeAddresses] in
theorem HeapOk.ran (h : HeapOk s log) (e : Entry) : HeapOk s (log ++ [.ran e]) := by
  have hmem : ∀ {b}, .freed b ∈ log ++ [.ran e] → .freed b ∈ log := by simp
  exact ⟨h.values, h.dead, h.fresh, h.distinct, fun k b hb hf => h.unfreed k b hb (hmem hf),
    fun b hf => h.old b (hmem hf)⟩

def Grows (s t : Tlv) : Prop := ∀ k b, s.slot k = some (.buffer b) → t.slot k = some (.buffer b)

omit [CodeAddresses] in
theorem pendingEntries_sets (hs : Sets s t key value) (hk : key ≠ s.terminatorsKey) :
    pendingEntries t = pendingEntries s := by
  rw [pendingEntries, hs.terminatorsKey, hs.slot, if_neg (Ne.symm hk), pendingEntries]

omit [CodeAddresses] in
theorem pendingEntries_none (hs : Sets s t key none) (hk : key = s.terminatorsKey) :
    pendingEntries t = [] := by
  rw [pendingEntries, hs.terminatorsKey, hs.slot, if_pos hk.symm]

structure Touched (s t : Tlv) (key : ℕ) (log : List Action) (value : Option Value) : Prop where
  table : TableOk t
  heap : HeapOk t log
  grows : Grows s t
  images : imageKeys t = imageKeys s
  terminators : t.slot pthreadTsdStart = s.slot pthreadTsdStart
  result : ∀ b, value = some (.buffer b) → t.slot key = some (.buffer b)

theorem getAddr_touched (h : TableOk s) (hh : HeapOk s log) (hk : key ∈ imageKeys s) :
    Touched s (zPthreadTlvGetAddr s key).1 key log (zPthreadTlvGetAddr s key).2 := by
  have hsame : ∀ value, (∀ b, value = some (.buffer b) → s.slot key = some (.buffer b)) →
      Touched s s key log value :=
    fun value hv => ⟨h, hh, fun _ _ hb => hb, rfl, rfl, hv⟩
  unfold zPthreadTlvGetAddr zPthreadTlvAllocateAndInitializeForKey
  cases hslot : s.slot key with
  | some v => exact hsame _ fun b hb => hslot.trans hb
  | none =>
    cases himage : zPthreadTlvGetImageForKey s.images key with
    | none => exact hsame _ (by simp)
    | some image =>
      simp only
      split
      · exact hsame _ (by simp)
      · obtain ⟨hdyn, hne, _⟩ := h.images key hk
        have hlive := h.live_image hk
        have hsets := setspecific_sets (s := { s with nextBuffer := s.nextBuffer + 1 })
          (settable_of_live hdyn hlive) (some (.buffer s.nextBuffer))
        refine ⟨?_, hh.alloc hk hlive hsets, fun k b hb => ?_, ?_, ?_, ?_⟩
        · exact TableOk.sets (s := { s with nextBuffer := s.nextBuffer + 1 })
            ⟨h.terminatorsKey, h.finalizer, h.images, h.others⟩ hsets
        · rw [hsets.slot, if_neg]
          · exact hb
          · rintro rfl
            rw [hslot] at hb
            cases hb
        · exact imageKeys_sets (s := { s with nextBuffer := s.nextBuffer + 1 }) hsets
        · rw [hsets.slot, if_neg (Ne.symm hne)]
          rfl
        · intro b hb
          rw [hsets.slot, if_pos rfl]
          exact hb

theorem HeapOk.terminators_slot (hh : HeapOk s log) (h : TableOk s) {v : Value}
    (hv : s.slot pthreadTsdStart = some v) : ∃ list, v = .terminators list := by
  have hbelongs := hh.values _ v hv
  cases v with
  | terminators list => exact ⟨list, rfl⟩
  | buffer b => exact absurd rfl (h.images _ hbelongs).2.1
  | user n => exact absurd rfl hbelongs.1

structure Registered (s t : Tlv) (log : List Action) (entry : Entry) : Prop where
  table : TableOk t
  heap : HeapOk t log
  grows : Grows s t
  pending : pendingEntries t = pendingEntries s ++ [entry]

theorem atexit_registered (h : TableOk s) (hh : HeapOk s log) (entry : Entry) :
    Registered s (zPthreadTlvAtexit s entry) log entry := by
  have hkey := h.terminatorsKey
  have hlist : ∀ v, s.slot s.terminatorsKey = some v → ∃ list, v = .terminators list :=
    fun v hv => hh.terminators_slot h (hkey ▸ hv)
  obtain ⟨list, hentries, hsets⟩ := atexit_sets h.settable_terminators hlist entry
  refine ⟨h.sets hsets, hh.sets hsets fun v hv => ?_, fun k c hc => ?_, ?_⟩
  · obtain rfl := Option.some.inj hv
    exact ⟨hkey, by simp, fun _ => hkey ▸ h.live⟩
  · rw [hsets.slot, if_neg]
    · exact hc
    · rintro rfl
      obtain ⟨list, hlist⟩ := hlist _ hc
      cases hlist
  · rw [pendingEntries, hsets.terminatorsKey, hsets.slot, if_pos rfl]
    exact hentries

end TlvCleanup
