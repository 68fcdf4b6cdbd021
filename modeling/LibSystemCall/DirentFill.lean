import LibSystemCall.DirentStream
import LibSystemCall.MergeSortStable
import LibSystemCall.StringStrncmp
import Mathlib.Data.List.TakeWhile

/-! # Removing duplicate names

What `z_filldir` does once the whole directory is in the buffer: two scans collect pointers
to the entries, `z_mergesort` orders them by name, and the inode numbers of duplicates are
zapped. Pointers are addresses, and `dpv` holds 64-bit ones. -/
namespace DirentFill

open ByteMemory ElementArray StableMerge StringMemmove StringStrncmp MergeSort DirentStream

def MAXPATHLEN : ℕ := 4096

def dNameOf (dp : ℕ) : ℕ := dp + 21

/-- The names are in `m`, which is the memory before the sort; the sort moves pointers only. -/
def zOpendirCompar (m : Memory) (p1 p2 : List UInt8) : ℤ :=
  zStrncmp m (dNameOf (leValue p1)) (dNameOf (leValue p2)) MAXPATHLEN

/-- `z_malloc` clears what it has mapped. -/
def zMalloc (m : Memory) (size : ℕ) : Option ℕ → Memory
  | none => m
  | some p => store m p (List.replicate size 0)

/-- One pass over the buffer, from `ddptr` on; `n` entries have been counted. -/
def scanEntries (dpv : Option ℕ) (ddeptr : ℕ) : ℕ → Memory → ℕ → ℕ → Option (Memory × ℕ × ℕ)
  | 0, _, _, _ => none
  | k + 1, m, ddptr, n =>
    if ddptr < ddeptr then
      let dp := ddptr
      let reclen := (loadWord 16 m (dp + 16)).toNat
      if dp % 4 ≠ 0 then some (m, ddptr, n)
      else if reclen = 0 ∨ reclen > ddeptr + 1 - ddptr then some (m, ddptr, n)
      else
        let ddptr := ddptr + reclen
        if loadWord 64 m dp ≠ 0 then
          let m := match dpv with
            | some dpv => storePtr m (dpv + n * 8) dp
            | none => m
          scanEntries dpv ddeptr k m ddptr (n + 1)
        else scanEntries dpv ddeptr k m ddptr n
    else some (m, ddptr, n)

/-- `(xp == Z_NULL) || z_strncmp(dp->d_name, xp->d_name, MAXPATHLEN)` -/
def differs (m : Memory) (dp : ℕ) : Option ℕ → Bool
  | none => true
  | some xp => decide (zStrncmp m (dNameOf dp) (dNameOf xp) MAXPATHLEN ≠ 0)

/-- `for (n = 0; dpv[n]; n++)`; a null `xp` is none. -/
def zapEntries (flags : BitVec 32) (dpv : ℕ) : ℕ → Memory → ℕ → Option ℕ → Option Memory
  | 0, _, _, _ => none
  | k + 1, m, n, xp =>
    let dp := loadPtr m (dpv + n * 8)
    if dp = 0 then some m
    else
      let fresh := differs m dp xp
      let m := if fresh then m else storeWord m dp 0#64
      let m := if m (dp + 20) = DT_WHT ∧ flags &&& DTF_HIDEW ≠ 0 then storeWord m dp 0#64 else m
      zapEntries flags dpv k m (n + 1) (if fresh then some dp else xp)

/-- The memory and `__dd_size`. `dpv` is what `z_malloc` returns for the pointers, `list2` what
it returns to `z_mergesort`. -/
def scanSortZap (m : Memory) (flags : BitVec 32) (buf ddeptr : ℕ) (dpv list2 : Option ℕ) :
    Option (Memory × ℕ) :=
  (scanEntries none ddeptr (ddeptr - buf + 1) m buf 0).bind fun (m, ddptr, n) =>
    match dpv with
    | none => some (m, ddptr - buf)
    | some dpv =>
      let m := zMalloc m ((n + 1) * 8) (some dpv)
      (scanEntries (some dpv) ddeptr (ddeptr - buf + 1) m buf 0).bind fun (m, ddptr, n) =>
        let m := if n = 0 then m else zMalloc m (n * 8 + PSIZE) list2
        (zMergesort (zOpendirCompar m) m dpv n 8 list2).bind fun r =>
          let m := storePtr r.mem (dpv + n * 8) 0
          (zapEntries flags dpv (n + 1) m 0 none).map fun m => (m, ddptr - buf)

/-- The first entry of its name, and no whiteout that is to be hidden; `before` are the
records in front of it. -/
def Keeps (hide : Prop) (before : List Dirent) (d : Dirent) : Prop :=
  d.ino ≠ 0 ∧ (∀ e ∈ before, e.ino ≠ 0 → e.dName ≠ d.dName) ∧ ¬ (d.type = DT_WHT ∧ hide)

instance (hide : Prop) [Decidable hide] (before : List Dirent) (d : Dirent) :
    Decidable (Keeps hide before d) := inferInstanceAs (Decidable (_ ∧ _ ∧ _))

def zap (hide : Prop) [Decidable hide] (before : List Dirent) (d : Dirent) : Dirent :=
  if Keeps hide before d then d else { d with ino := 0 }

def zapAll (hide : Prop) [Decidable hide] (before : List Dirent) : List Dirent → List Dirent
  | [] => []
  | d :: ds => zap hide before d :: zapAll hide (before ++ [d]) ds

def WellFormed (d : Dirent) : Prop := 0 ∈ d.name ∧ d.dName.length < 1024

instance (d : Dirent) : Decidable (WellFormed d) := inferInstanceAs (Decidable (_ ∧ _))

def placed (p : ℕ) : List Dirent → List (ℕ × Dirent)
  | [] => []
  | d :: ds => (p, d) :: placed (p + d.reclen) ds

def live (p : ℕ) (ds : List Dirent) : List ℕ :=
  ((placed p ds).filter fun e => e.2.ino ≠ 0).map Prod.fst

/-- The records of the buffer of `len` bytes, and the two blocks of `z_malloc`: none of the
three wraps or overlaps another. -/
structure Filling (m : Memory) (buf len dpv list2 : ℕ) (records : List Dirent) : Prop where
  held : load m buf (bytesOf records).length = bytesOf records
  wellFormed : ∀ d ∈ records, WellFormed d
  inside : (bytesOf records).length ≤ len
  small : len < 2 ^ 31
  nonNull : 0 < buf
  aligned : buf % 4 = 0
  fits : buf + len < 2 ^ 64
  dpvFits : dpv + ((live buf records).length + 1) * 8 < 2 ^ 64
  list2Fits : list2 + (live buf records).length * 8 + 8 < 2 ^ 64
  page : 8 ∣ list2
  dpvApart : buf + len ≤ dpv ∨ dpv + ((live buf records).length + 1) * 8 ≤ buf
  list2Apart : buf + len ≤ list2 ∨ list2 + (live buf records).length * 8 + 8 ≤ buf
  blocksApart : dpv + ((live buf records).length + 1) * 8 ≤ list2 ∨
    list2 + (live buf records).length * 8 + 8 ≤ dpv

structure Filled (m m' : Memory) (flags : BitVec 32) (buf len : ℕ) (records : List Dirent)
    (size : ℕ) : Prop where
  zapped : load m' buf (bytesOf records).length =
    bytesOf (zapAll (flags &&& DTF_HIDEW ≠ 0) [] records)
  rest : ∀ x, buf + (bytesOf records).length ≤ x → x < buf + len → m' x = m x
  size : size = (bytesOf records).length

theorem bytesOf_cons (d : Dirent) (ds : List Dirent) :
    bytesOf (d :: ds) = d.bytes ++ bytesOf ds := rfl

theorem length_bytesOf_cons (d : Dirent) (ds : List Dirent) :
    (bytesOf (d :: ds)).length = d.reclen + (bytesOf ds).length := by
  rw [bytesOf_cons, List.length_append, length_bytes]

theorem load_bytesOf_cons {m : Memory} {p n : ℕ} {d : Dirent} {ds : List Dirent}
    (h : load m p n = bytesOf (d :: ds)) :
    load m p d.reclen = d.bytes ∧
      load m (p + d.reclen) (bytesOf ds).length = bytesOf ds := by
  rw [bytesOf_cons] at h
  obtain ⟨hd, hds⟩ := load_append_inj h
  rw [length_bytes] at hd hds
  exact ⟨hd, hds⟩

theorem placed_append (p : ℕ) (ds es : List Dirent) :
    placed p (ds ++ es) = placed p ds ++ placed (p + (bytesOf ds).length) es := by
  induction ds generalizing p with
  | nil => rfl
  | cons d ds ih =>
    rw [List.cons_append, placed, ih, placed, length_bytesOf_cons, Nat.add_assoc]
    rfl

theorem live_append (p : ℕ) (ds es : List Dirent) :
    live p (ds ++ es) = live p ds ++ live (p + (bytesOf ds).length) es := by
  simp only [live, placed_append, List.filter_append, List.map_append]

theorem live_cons (p : ℕ) (d : Dirent) (ds : List Dirent) :
    live p (d :: ds) = (if d.ino ≠ 0 then [p] else []) ++ live (p + d.reclen) ds := by
  by_cases h : d.ino = 0#64
  · simp [live, placed, h]
  · simp [live, placed, h]

theorem placed_inside {p : ℕ} {ds : List Dirent} {e : ℕ × Dirent} (h : e ∈ placed p ds) :
    p ≤ e.1 ∧ e.1 + e.2.reclen ≤ p + (bytesOf ds).length := by
  induction ds generalizing p with
  | nil => simp [placed] at h
  | cons d ds ih =>
    rw [length_bytesOf_cons]
    rcases List.mem_cons.mp h with rfl | h
    · exact ⟨le_rfl, by simp only; omega⟩
    · have := ih h
      omega

theorem placed_load {m : Memory} {p : ℕ} {ds : List Dirent}
    (hm : load m p (bytesOf ds).length = bytesOf ds) {e : ℕ × Dirent} (h : e ∈ placed p ds) :
    load m e.1 e.2.reclen = e.2.bytes := by
  induction ds generalizing p with
  | nil => simp [placed] at h
  | cons d ds ih =>
    obtain ⟨hd, hds⟩ := load_bytesOf_cons hm
    rcases List.mem_cons.mp h with rfl | h
    · exact hd
    · exact ih hds h

theorem placed_mem {p : ℕ} {ds : List Dirent} {e : ℕ × Dirent} (h : e ∈ placed p ds) :
    e.2 ∈ ds := by
  induction ds generalizing p with
  | nil => simp [placed] at h
  | cons d ds ih =>
    rcases List.mem_cons.mp h with rfl | h
    · exact List.mem_cons_self
    · exact List.mem_cons_of_mem _ (ih h)

theorem exists_placed {p : ℕ} {ds : List Dirent} {d : Dirent} (h : d ∈ ds) :
    ∃ q, (q, d) ∈ placed p ds := by
  induction ds generalizing p with
  | nil => simp at h
  | cons c ds ih =>
    rcases List.mem_cons.mp h with rfl | h
    · exact ⟨p, List.mem_cons_self⟩
    · obtain ⟨q, hq⟩ := ih (p := p + c.reclen) h
      exact ⟨q, List.mem_cons_of_mem _ hq⟩

theorem mem_live {p q : ℕ} {ds : List Dirent} :
    q ∈ live p ds ↔ ∃ d, (q, d) ∈ placed p ds ∧ d.ino ≠ 0 := by
  simp [live]

theorem twenty_two_le_reclen {d : Dirent} (h : WellFormed d) : 22 ≤ d.reclen := by
  have := List.length_pos_of_mem h.1
  rw [Dirent.reclen]
  omega

theorem placed_apart {p : ℕ} {ds : List Dirent} {e f : ℕ × Dirent} (he : e ∈ placed p ds)
    (hf : f ∈ placed p ds) :
    e = f ∨ e.1 + e.2.reclen ≤ f.1 ∨ f.1 + f.2.reclen ≤ e.1 := by
  induction ds generalizing p with
  | nil => simp [placed] at he
  | cons d ds ih =>
    rcases List.mem_cons.mp he with rfl | he <;> rcases List.mem_cons.mp hf with rfl | hf
    · exact .inl rfl
    · exact .inr (.inl (placed_inside hf).1)
    · exact .inr (.inr (placed_inside he).1)
    · exact ih he hf

theorem live_inside {p q : ℕ} {ds : List Dirent} (h : q ∈ live p ds) :
    p ≤ q ∧ q + 21 ≤ p + (bytesOf ds).length := by
  obtain ⟨d, hd, -⟩ := mem_live.mp h
  have hin := placed_inside hd
  have hlen : d.reclen = 21 + d.name.length := rfl
  simp only at hin
  omega

theorem live_nodup (p : ℕ) (ds : List Dirent) : (live p ds).Nodup := by
  induction ds generalizing p with
  | nil => exact List.nodup_nil
  | cons d ds ih =>
    rw [live_cons]
    split
    · refine List.nodup_cons.mpr ⟨fun h => ?_, ih _⟩
      have hin := (live_inside h).1
      have hlen : d.reclen = 21 + d.name.length := rfl
      omega
    · exact ih _

def storePtrs (m : Memory) (a : ℕ) : List ℕ → Memory
  | [] => m
  | p :: ps => storePtrs (storePtr m a p) (a + 8) ps

theorem storePtrs_outside {m : Memory} {a x : ℕ} {ps : List ℕ}
    (h : x < a ∨ a + ps.length * 8 ≤ x) : storePtrs m a ps x = m x := by
  induction ps generalizing m a with
  | nil => rfl
  | cons p ps ih =>
    rw [List.length_cons] at h
    rw [storePtrs, ih (by omega), storePtr_outside (by omega)]

theorem storePtrs_laid {m : Memory} {a : ℕ} {ps : List ℕ} (h : ∀ p ∈ ps, p < 2 ^ 64) :
    Laid 8 (storePtrs m a ps) a (ps.map (leBytes 8)) := by
  induction ps generalizing m a with
  | nil => trivial
  | cons p ps ih =>
    refine ⟨?_, ih fun q hq => h q (List.mem_cons_of_mem _ hq)⟩
    have hkept : load (storePtrs (storePtr m a p) (a + 8) ps) a 8 = load (storePtr m a p) a 8 :=
      load_congr fun i hi => storePtrs_outside (by omega)
    have hsame := load_store_same m a (leBytes 8 p)
    rw [length_leBytes] at hsame
    rw [storePtrs, hkept, storePtr, storeWord, BitVec.toNat_ofNat,
      Nat.mod_eq_of_lt (h p List.mem_cons_self)]
    exact hsame

def stored (m : Memory) (n : ℕ) (ps : List ℕ) : Option ℕ → Memory
  | none => m
  | some dpv => storePtrs m (dpv + n * 8) ps

theorem scanEntries_eq {m : Memory} {dpv : Option ℕ} {p n fuel : ℕ} {ds : List Dirent}
    (hm : load m p (bytesOf ds).length = bytesOf ds) (hp : p % 4 = 0)
    (hapart : ∀ a ∈ dpv, p + (bytesOf ds).length ≤ a + n * 8 ∨
      a + (n + (live p ds).length) * 8 ≤ p)
    (hfuel : ds.length < fuel) :
    scanEntries dpv (p + (bytesOf ds).length) fuel m p n =
      some (stored m n (live p ds) dpv, p + (bytesOf ds).length, n + (live p ds).length) := by
  induction ds generalizing m p n fuel with
  | nil =>
    obtain ⟨fuel, rfl⟩ := Nat.exists_eq_add_of_le' (show 1 ≤ fuel from hfuel)
    have hend : ¬ p < p + (bytesOf []).length := Nat.lt_irrefl p
    rw [scanEntries, if_neg hend]
    cases dpv with
    | none => rfl
    | some a => rfl
  | cons d ds ih =>
    obtain ⟨fuel, rfl⟩ := Nat.exists_eq_add_of_le' (show 1 ≤ fuel by omega)
    obtain ⟨hd, hds⟩ := load_bytesOf_cons hm
    have hstored := stored_of_load hd
    have hlen : d.reclen = 21 + d.name.length := rfl
    have h4 := d.aligned
    rw [length_bytesOf_cons] at hapart ⊢
    rw [scanEntries, if_pos (by omega)]
    simp only [hstored.reclen, hstored.ino]
    rw [if_neg (by omega), if_neg (by omega), ← Nat.add_assoc, live_cons]
    rw [live_cons] at hapart
    by_cases hino : d.ino = 0
    · simp only [hino, ne_eq, not_true, if_false, List.nil_append] at hapart ⊢
      exact ih hds (by omega) (fun a ha => by have := hapart a ha; omega)
        (by simpa using hfuel)
    · simp only [hino, ne_eq, not_false_iff, if_true, List.singleton_append,
        List.length_cons] at hapart ⊢
      cases dpv with
      | none =>
        rw [ih hds (by omega) (by simp) (by simpa using hfuel)]
        simp only [stored, Nat.add_assoc, Nat.add_comm 1]
      | some a =>
        have hout := hapart a rfl
        have hkept : load (storePtr m (a + n * 8) p) (p + d.reclen) (bytesOf ds).length =
            bytesOf ds :=
          (load_congr fun i hi => storePtr_outside (by omega)).trans hds
        rw [ih hkept (by omega) (fun b hb => ?_) (by simpa using hfuel)]
        · simp only [stored, storePtrs, Nat.add_mul, Nat.one_mul, Nat.add_assoc, Nat.add_comm 1]
        · rw [← Option.mem_some.mp hb]
          omega

theorem zOpendirCompar_comparator (m : Memory) : Comparator (zOpendirCompar m) where
  opposite a b := by
    simp only [zOpendirCompar, zStrncmp, if_neg (show ¬ MAXPATHLEN = 0 by decide)]
    rw [strncmpLoop_swap]
    omega
  trans a b c := by
    simp only [zOpendirCompar, zStrncmp, if_neg (show ¬ MAXPATHLEN = 0 by decide)]
    exact strncmpLoop_trans

theorem name_split {d : Dirent} (hw : WellFormed d) :
    ∃ rest, d.name = (d.dName ++ [0]) ++ rest := by
  have hsplit := List.takeWhile_append_dropWhile (p := fun b : UInt8 => decide (b ≠ 0))
    (l := d.name)
  cases hdrop : d.name.dropWhile fun b => decide (b ≠ 0) with
  | nil =>
    have hall := List.dropWhile_eq_nil_iff.mp hdrop 0 hw.1
    simp at hall
  | cons b rest =>
    have hb := List.head_dropWhile_not (fun b : UInt8 => decide (b ≠ 0)) (l := d.name)
      (by simpa using hw.1)
    simp only [hdrop, List.head_cons, decide_eq_false_iff_not, ne_eq, not_not] at hb
    rw [hdrop, hb] at hsplit
    exact ⟨rest, by rw [List.append_assoc, List.singleton_append]; exact hsplit.symm⟩

theorem length_dName_lt {d : Dirent} (hw : WellFormed d) : d.dName.length < d.name.length := by
  obtain ⟨rest, hrest⟩ := name_split hw
  have hlen := congrArg List.length hrest
  simp only [List.length_append, List.length_singleton] at hlen
  omega

theorem name_at {m : Memory} {q : ℕ} {d : Dirent} (h : load m q d.reclen = d.bytes)
    (hw : WellFormed d) : CStringAt m (dNameOf q) d.dName := by
  have hbytes : d.bytes = (leBytes 8 d.ino.toNat ++ leBytes 8 d.seekoff.toNat ++
      leBytes 2 d.reclen ++ leBytes 2 d.namlen.toNat ++ [d.type]) ++ d.name := by
    simp [Dirent.bytes]
  rw [hbytes] at h
  have hname := (load_append_inj h).2
  simp only [List.length_append, length_leBytes, List.length_singleton, Nat.reduceAdd] at hname
  obtain ⟨rest, hrest⟩ := name_split hw
  rw [hrest] at hname
  have hstring := (load_append_inj hname).1
  rw [List.length_append, List.length_singleton] at hstring
  refine ⟨hstring, fun hmem => ?_⟩
  have hne := List.mem_takeWhile_imp hmem
  simp at hne

theorem zStrncmp_names {m : Memory} {q r : ℕ} {d e : Dirent}
    (hd : CStringAt m (dNameOf q) d.dName) (he : CStringAt m (dNameOf r) e.dName)
    (hw : WellFormed d) :
    zStrncmp m (dNameOf q) (dNameOf r) MAXPATHLEN = 0 ↔ d.dName = e.dName := by
  have hlen : d.dName.length ≤ MAXPATHLEN - 1 := by
    have := hw.2
    unfold MAXPATHLEN
    omega
  rw [zStrncmp, if_neg (by decide)]
  exact strncmpLoop_eq_zero hd he hlen

def nameLe (m : Memory) (p q : ℕ) : Bool := leOf (zOpendirCompar m) (leBytes 8 p) (leBytes 8 q)

theorem leValue_ptr {p : ℕ} (h : p < 2 ^ 64) : leValue (leBytes 8 p) = p := by
  rw [leValue_leBytes, Nat.mod_eq_of_lt (by simpa using h)]

theorem equiv_names {m : Memory} {q r : ℕ} {d e : Dirent} (hq : q < 2 ^ 64) (hr : r < 2 ^ 64)
    (hd : load m q d.reclen = d.bytes) (he : load m r e.reclen = e.bytes) (hw : WellFormed d)
    (hw' : WellFormed e) : equiv (nameLe m) q r = true ↔ d.dName = e.dName := by
  have hopp := (zOpendirCompar_comparator m).opposite (leBytes 8 q) (leBytes 8 r)
  have hopp' := (zOpendirCompar_comparator m).opposite (leBytes 8 r) (leBytes 8 q)
  have hcmp : zOpendirCompar m (leBytes 8 q) (leBytes 8 r) =
      zStrncmp m (dNameOf q) (dNameOf r) MAXPATHLEN := by
    rw [zOpendirCompar, leValue_ptr hq, leValue_ptr hr]
  rw [← zStrncmp_names (name_at hd hw) (name_at he hw') hw, ← hcmp]
  simp only [equiv, nameLe, leOf, Bool.and_eq_true, decide_eq_true_eq]
  omega

/-- The words at the addresses of `Z` are zero, and nothing else has changed. -/
structure Zeroed (Z : ℕ → Prop) (m m' : Memory) : Prop where
  inside : ∀ p, Z p → ∀ i < 8, m' (p + i) = 0
  outside : ∀ x, (∀ p, Z p → x < p ∨ p + 8 ≤ x) → m' x = m x

theorem Zeroed.of_iff {Z Z' : ℕ → Prop} {m m' : Memory} (h : Zeroed Z m m')
    (hz : ∀ p, Z p ↔ Z' p) : Zeroed Z' m m' :=
  ⟨fun p hp => h.inside p ((hz p).mpr hp), fun x hx => h.outside x fun p hp => hx p ((hz p).mp hp)⟩

theorem Zeroed.trans {Z Z' : ℕ → Prop} {m m' m'' : Memory} (h : Zeroed Z m m')
    (k : Zeroed Z' m' m'') : Zeroed (fun p => Z p ∨ Z' p) m m'' := by
  constructor
  · rintro p (hp | hp) i hi
    · by_cases hx : ∀ q, Z' q → p + i < q ∨ q + 8 ≤ p + i
      · rw [k.outside _ hx, h.inside p hp i hi]
      · push Not at hx
        obtain ⟨q, hq, hlo, hhi⟩ := hx
        have hzero := k.inside q hq (p + i - q) (by omega)
        rwa [Nat.add_sub_cancel' hlo] at hzero
    · exact k.inside p hp i hi
  · intro x hx
    rw [k.outside x fun p hp => hx p (.inr hp), h.outside x fun p hp => hx p (.inl hp)]

theorem zeroed_storeWord (m : Memory) (p : ℕ) (c : Prop) [Decidable c] :
    Zeroed (fun q => q = p ∧ c) m (if c then storeWord m p 0#64 else m) := by
  by_cases hc : c
  · rw [if_pos hc]
    refine ⟨?_, fun x hx => storeWord_outside (hx p ⟨rfl, hc⟩)⟩
    rintro q ⟨rfl, -⟩ i hi
    have hzero : ∀ i : Fin 8, (List.replicate 8 (0 : UInt8)).get i = 0 := by decide
    have hlen : i < (leBytes (64 / 8) (0#64).toNat).length := by simpa using hi
    rw [storeWord, store_inside hlen]
    exact hzero ⟨i, hi⟩
  · rw [if_neg hc]
    exact ⟨fun q hq => absurd hq.2 hc, fun _ _ => rfl⟩

def SameButInodes (ps : List ℕ) (m m' : Memory) : Prop :=
  ∀ x, (∀ p ∈ ps, x < p ∨ p + 8 ≤ x) → m' x = m x

theorem Zeroed.same {Z : ℕ → Prop} {ps : List ℕ} {m m' : Memory} (h : Zeroed Z m m')
    (hz : ∀ p, Z p → p ∈ ps) : SameButInodes ps m m' :=
  fun x hx => h.outside x fun p hp => hx p (hz p hp)

theorem SameButInodes.trans {ps : List ℕ} {m m' m'' : Memory} (h : SameButInodes ps m m')
    (k : SameButInodes ps m' m'') : SameButInodes ps m m'' :=
  fun x hx => (k x hx).trans (h x hx)

/-- What the loop finds: the pointers in their order, then null; equal names; whiteouts. -/
structure Sheet (dpv : ℕ) (le : ℕ → ℕ → Bool) (whiteout : ℕ → Prop) (ps : List ℕ)
    (m : Memory) : Prop where
  slot : ∀ done p rest, ps = done ++ p :: rest → loadPtr m (dpv + done.length * 8) = p
  last : loadPtr m (dpv + ps.length * 8) = 0
  compare : ∀ p ∈ ps, ∀ q ∈ ps,
    zStrncmp m (dNameOf p) (dNameOf q) MAXPATHLEN = 0 ↔ equiv le q p = true
  type : ∀ p ∈ ps, m (p + 20) = DT_WHT ↔ whiteout p

theorem zapEntries_zeroes (flags : BitVec 32) {dpv : ℕ} {le : ℕ → ℕ → Bool}
    {whiteout : ℕ → Prop} {ps done rest : List ℕ} {m : Memory} {xp : Option ℕ}
    (hsheet : ∀ m', SameButInodes ps m m' → Sheet dpv le whiteout ps m')
    (hnull : ∀ p ∈ ps, p ≠ 0) (hps : ps = done ++ rest) (hnodup : rest.Nodup)
    (hxp : ∀ x ∈ xp, x ∈ ps) :
    ∃ m', zapEntries flags dpv (rest.length + 1) m done.length xp = some m' ∧
      Zeroed (fun p => p ∈ rest ∧
        (p ∉ keepFirst le xp rest ∨ whiteout p ∧ flags &&& DTF_HIDEW ≠ 0)) m m' := by
  induction rest generalizing done m xp with
  | nil =>
    have hlast := (hsheet m fun _ _ => rfl).last
    rw [hps, List.append_nil] at hlast
    refine ⟨m, ?_, fun p hp => by simp at hp, fun _ _ => rfl⟩
    rw [zapEntries, hlast]
    rfl
  | cons y ys ih =>
    obtain ⟨hy, hys⟩ := List.nodup_cons.mp hnodup
    have hmem : y ∈ ps := by simp [hps]
    have hnow := hsheet m fun _ _ => rfl
    rw [List.length_cons, zapEntries, hnow.slot done y ys hps]
    simp only [if_neg (hnull y hmem)]
    have hfresh : differs m y xp = !xp.any fun x => equiv le x y := by
      cases xp with
      | none => rfl
      | some x =>
        have := hnow.compare y hmem x (hxp x rfl)
        simp only [differs, Option.any_some]
        cases h : equiv le x y <;> simp_all
    generalize differs m y xp = fresh at *
    have hfirst := zeroed_storeWord m y (¬ fresh = true)
    rw [ite_not] at hfirst
    generalize (if fresh = true then m else storeWord m y 0#64) = m₁ at *
    have hsame₁ : SameButInodes ps m m₁ := hfirst.same fun p hp => hp.1 ▸ hmem
    have hsecond := zeroed_storeWord m₁ y (m₁ (y + 20) = DT_WHT ∧ flags &&& DTF_HIDEW ≠ 0)
    generalize (if m₁ (y + 20) = DT_WHT ∧ flags &&& DTF_HIDEW ≠ 0 then storeWord m₁ y 0#64
      else m₁) = m₂ at *
    simp only [(hsheet m₁ hsame₁).type y hmem] at hsecond
    have hsame₂ : SameButInodes ps m m₂ := hsame₁.trans (hsecond.same fun p hp => hp.1 ▸ hmem)
    have hxp' : ∀ x ∈ (if fresh = true then some y else xp), x ∈ ps := by
      intro x hx
      split at hx
      · rwa [← Option.mem_some.mp hx]
      · exact hxp x hx
    obtain ⟨m₃, hrun, hrest⟩ := ih (m := m₂) (fun m' h => hsheet m' (hsame₂.trans h))
      (show ps = (done ++ [y]) ++ ys by rw [hps, List.append_assoc, List.singleton_append])
      hys hxp'
    rw [List.length_append, List.length_singleton] at hrun
    refine ⟨m₃, hrun, ((hfirst.trans hsecond).trans hrest).of_iff fun p => ?_⟩
    rw [keepFirst]
    have hsub : y ∉ keepFirst le xp ys := fun h => hy (keepFirst_subset h)
    by_cases hpy : p = y
    · subst hpy
      cases h : xp.any fun x => equiv le x p <;> simp [hfresh, h, hy, hsub]
    · cases h : xp.any fun x => equiv le x y <;> simp [hfresh, h, hpy]

theorem load_zeroed {m m' : Memory} {q : ℕ} {d : Dirent} (h : load m q d.reclen = d.bytes)
    (hz : ∀ i < 8, m' (q + i) = 0) (hs : ∀ x, q + 8 ≤ x → x < q + d.reclen → m' x = m x) :
    load m' q d.reclen = Dirent.bytes { d with ino := 0 } := by
  obtain ⟨rest, hsplit, hlen⟩ : ∃ rest : List UInt8, (∀ n : BitVec 64,
      Dirent.bytes { d with ino := n } = leBytes 8 n.toNat ++ rest) ∧
        d.reclen = 8 + rest.length := by
    refine ⟨leBytes 8 d.seekoff.toNat ++ leBytes 2 d.reclen ++ leBytes 2 d.namlen.toNat ++
      d.type :: d.name, fun n => by simp [Dirent.bytes, Dirent.reclen], ?_⟩
    simp only [List.length_append, length_leBytes, List.length_cons, Dirent.reclen]
    omega
  have hrest := (load_append_inj (h.trans (hsplit d.ino))).2
  rw [length_leBytes] at hrest
  rw [hsplit, hlen, load_add, ← hrest, length_load]
  congr 1
  · have hzero : load m' q 8 = List.replicate 8 0 := by
      apply List.ext_getElem
      · simp
      · intro i hi _
        rw [getElem_load, List.getElem_replicate]
        exact hz i (by simpa using hi)
    rw [hzero]
    rfl
  · exact load_congr fun i hi => hs (q + 8 + i) (by omega) (by omega)

theorem load_zapAll {hide : Prop} [Decidable hide] {m : Memory} {p : ℕ}
    {before ds : List Dirent}
    (h : ∀ ds₁ d ds₂, ds = ds₁ ++ d :: ds₂ →
      load m (p + (bytesOf ds₁).length) d.reclen = (zap hide (before ++ ds₁) d).bytes) :
    load m p (bytesOf ds).length = bytesOf (zapAll hide before ds) := by
  induction ds generalizing p before with
  | nil => rfl
  | cons d ds ih =>
    have hhead := h [] d ds rfl
    rw [List.append_nil] at hhead
    rw [length_bytesOf_cons, load_add, zapAll, bytesOf_cons]
    congr 1
    refine ih fun ds₁ e ds₂ hds => ?_
    have hnext := h (d :: ds₁) e ds₂ (by rw [hds, List.cons_append])
    rw [length_bytesOf_cons, ← Nat.add_assoc] at hnext
    rw [hnext, List.append_assoc, List.singleton_append]

variable {m : Memory} {buf len dpv list2 : ℕ} {records : List Dirent}

theorem Filling.entry (h : Filling m buf len dpv list2 records) {e : ℕ × Dirent}
    (he : e ∈ placed buf records) :
    load m e.1 e.2.reclen = e.2.bytes ∧ WellFormed e.2 ∧ e.1 < 2 ^ 64 := by
  have hin := placed_inside he
  have hfits := h.fits
  have hlen := h.inside
  have hrec : e.2.reclen = 21 + e.2.name.length := rfl
  exact ⟨placed_load h.held he, h.wellFormed _ (placed_mem he), by omega⟩

theorem Filling.kept_iff (h : Filling m buf len dpv list2 records) {ps : List ℕ}
    (hstable : Stable (nameLe m) (live buf records) ps) (hsorted : Sorted (nameLe m) ps)
    {ds₁ ds₂ : List Dirent} {d : Dirent} (hsplit : records = ds₁ ++ d :: ds₂) (hino : d.ino ≠ 0) :
    buf + (bytesOf ds₁).length ∈ keepFirst (nameLe m) none ps ↔
      ∀ e ∈ ds₁, e.ino ≠ 0 → e.dName ≠ d.dName := by
  have hpre : TotalPreorder (nameLe m) :=
    ⟨fun a b => (zOpendirCompar_comparator m).preorder.total _ _,
      fun a b c => (zOpendirCompar_comparator m).preorder.trans _ _ _⟩
  have hplaced : placed buf records = placed buf ds₁ ++
      (buf + (bytesOf ds₁).length, d) :: placed (buf + (bytesOf ds₁).length + d.reclen) ds₂ := by
    rw [hsplit, placed_append, placed]
  have hlive : live buf records = live buf ds₁ ++ (buf + (bytesOf ds₁).length) ::
      live (buf + (bytesOf ds₁).length + d.reclen) ds₂ := by
    rw [hsplit, live_append, live_cons, if_pos hino, List.singleton_append]
  obtain ⟨hq, hw, hfit⟩ := h.entry (e := (buf + (bytesOf ds₁).length, d)) (by simp [hplaced])
  have hnot : buf + (bytesOf ds₁).length ∉ live buf ds₁ := by
    intro hmem
    have := (live_inside hmem).2
    omega
  have hequiv {p : ℕ} {e : Dirent} (he : (p, e) ∈ placed buf ds₁) :
      equiv (nameLe m) (buf + (bytesOf ds₁).length) p = true ↔ d.dName = e.dName := by
    obtain ⟨hp, hw', hfit'⟩ := h.entry (e := (p, e)) (by
      rw [hplaced]
      exact List.mem_append_left _ he)
    exact equiv_names hfit hfit' hq hp hw hw'
  rw [hstable.mem_keepFirst hpre hsorted, hlive,
    head?_filter_iff (equiv_refl hpre _) hnot]
  constructor
  · intro hall e he heino heq
    obtain ⟨p, hp⟩ := exists_placed (p := buf) he
    exact hall p (mem_live.mpr ⟨e, hp, heino⟩) ((hequiv hp).mpr heq.symm)
  · intro hall p hp heq
    obtain ⟨e, he, heino⟩ := mem_live.mp hp
    exact hall e (placed_mem he) heino ((hequiv he).mp heq).symm

theorem Filling.owner (h : Filling m buf len dpv list2 records) {q p x : ℕ} {d : Dirent}
    (hd : (q, d) ∈ placed buf records) (hp : p ∈ live buf records) (hlo : q ≤ x)
    (hhi : x < q + d.reclen) (hpx : p ≤ x) (hxp : x < p + 8) : p = q ∧ d.ino ≠ 0 := by
  obtain ⟨e, he, hino⟩ := mem_live.mp hp
  have hlen := twenty_two_le_reclen (h.entry he).2.1
  rcases placed_apart he hd with heq | hapart
  · obtain ⟨rfl, rfl⟩ := Prod.mk.inj heq
    exact ⟨rfl, hino⟩
  · simp only at hapart hlen
    omega

theorem Filling.record_same (h : Filling m buf len dpv list2 records) {q : ℕ} {d : Dirent}
    (hd : (q, d) ∈ placed buf records) {Z : ℕ → Prop} {m' : Memory} (hzero : Zeroed Z m m')
    (hlive : ∀ p, Z p → p ∈ live buf records) (hnot : ¬Z q) : load m' q d.reclen = d.bytes := by
  rw [← (h.entry hd).1]
  apply load_congr
  intro i hi
  apply hzero.outside
  intro p hp
  by_contra hin
  obtain ⟨rfl, -⟩ := h.owner hd (hlive p hp) (x := q + i) (by omega) (by omega) (by omega)
    (by omega)
  exact hnot hp

theorem Filling.record_zeroed (h : Filling m buf len dpv list2 records) {q : ℕ} {d : Dirent}
    (hd : (q, d) ∈ placed buf records) {Z : ℕ → Prop} {m' : Memory} (hzero : Zeroed Z m m')
    (hlive : ∀ p, Z p → p ∈ live buf records) (hq : Z q) :
    load m' q d.reclen = Dirent.bytes { d with ino := 0 } := by
  refine load_zeroed (h.entry hd).1 (hzero.inside q hq) ?_
  intro x hlo hhi
  apply hzero.outside
  intro p hp
  by_contra hin
  have := (h.owner hd (hlive p hp) (x := x) (by omega) hhi (by omega) (by omega)).1
  omega

theorem Filling.zapped_iff (h : Filling m buf len dpv list2 records) (flags : BitVec 32)
    {ps : List ℕ} {m₀ : Memory} (h₀ : Filling m₀ buf len dpv list2 records)
    (hstable : Stable (nameLe m₀) (live buf records) ps) (hsorted : Sorted (nameLe m₀) ps)
    {ds₁ ds₂ : List Dirent} {d : Dirent} (hsplit : records = ds₁ ++ d :: ds₂) :
    (buf + (bytesOf ds₁).length ∈ ps ∧
      (buf + (bytesOf ds₁).length ∉ keepFirst (nameLe m₀) none ps ∨
        m (buf + (bytesOf ds₁).length + 20) = DT_WHT ∧ flags &&& DTF_HIDEW ≠ 0)) ↔
      d.ino ≠ 0 ∧ ¬Keeps (flags &&& DTF_HIDEW ≠ 0) ds₁ d := by
  have hplaced : (buf + (bytesOf ds₁).length, d) ∈ placed buf records := by
    rw [hsplit, placed_append, placed]
    simp
  have hkept := fun hino => h₀.kept_iff hstable hsorted hsplit hino
  generalize buf + (bytesOf ds₁).length = q at *
  obtain ⟨hq, hw, -⟩ := h.entry hplaced
  have htype : m (q + 20) = d.type := (stored_of_load hq).type
  have hlen := twenty_two_le_reclen hw
  simp only at hlen
  rw [hstable.perm.mem_iff, htype]
  constructor
  · rintro ⟨hlive, hzap⟩
    have hino := (h.owner hplaced hlive (x := q) le_rfl (by omega) le_rfl (by omega)).2
    refine ⟨hino, ?_⟩
    intro hkeep
    rcases hzap with hdrop | hhide
    · exact hdrop ((hkept hino).mpr hkeep.2.1)
    · exact hkeep.2.2 hhide
  · rintro ⟨hino, hdrop⟩
    refine ⟨mem_live.mpr ⟨d, hplaced, hino⟩, ?_⟩
    by_contra hno
    push Not at hno
    apply hdrop
    refine ⟨hino, (hkept hino).mp hno.1, ?_⟩
    rintro ⟨hwhiteout, hhide⟩
    exact hhide (hno.2 hwhiteout)

theorem Filling.filled (h : Filling m buf len dpv list2 records) {flags : BitVec 32}
    {ps : List ℕ} {m₀ m' : Memory} (h₀ : Filling m₀ buf len dpv list2 records)
    (hstable : Stable (nameLe m₀) (live buf records) ps) (hsorted : Sorted (nameLe m₀) ps)
    (hzero : Zeroed (fun p => p ∈ ps ∧ (p ∉ keepFirst (nameLe m₀) none ps ∨
      m (p + 20) = DT_WHT ∧ flags &&& DTF_HIDEW ≠ 0)) m m') :
    Filled m m' flags buf len records (bytesOf records).length := by
  have hlive : ∀ p, (p ∈ ps ∧ (p ∉ keepFirst (nameLe m₀) none ps ∨
      m (p + 20) = DT_WHT ∧ flags &&& DTF_HIDEW ≠ 0)) → p ∈ live buf records :=
    fun p hp => hstable.perm.mem_iff.mp hp.1
  refine ⟨load_zapAll ?_, ?_, rfl⟩
  · intro ds₁ d ds₂ hsplit
    have hplaced : (buf + (bytesOf ds₁).length, d) ∈ placed buf records := by
      rw [hsplit, placed_append, placed]
      simp
    have hzapped := h.zapped_iff flags h₀ hstable hsorted hsplit
    rw [List.nil_append, zap]
    by_cases hkeep : Keeps (flags &&& DTF_HIDEW ≠ 0) ds₁ d
    · rw [if_pos hkeep]
      apply h.record_same hplaced hzero hlive
      intro hz
      exact (hzapped.mp hz).2 hkeep
    · rw [if_neg hkeep]
      by_cases hino : d.ino = 0
      · rw [h.record_same hplaced hzero hlive fun hz => (hzapped.mp hz).1 hino, ← hino]
      · exact h.record_zeroed hplaced hzero hlive (hzapped.mpr ⟨hino, hkeep⟩)
  · intro x hx _
    apply hzero.outside
    intro p hp
    have := (live_inside (hlive p hp)).2
    omega

theorem length_le_bytes (ds : List Dirent) : ds.length ≤ (bytesOf ds).length := by
  induction ds with
  | nil => exact le_rfl
  | cons d ds ih =>
    have hlen : d.reclen = 21 + d.name.length := rfl
    rw [length_bytesOf_cons, List.length_cons]
    omega

theorem live_length_le {p : ℕ} {ds : List Dirent} (h : ∀ d ∈ ds, WellFormed d) :
    (live p ds).length * 22 ≤ (bytesOf ds).length := by
  induction ds generalizing p with
  | nil => exact Nat.zero_le _
  | cons d ds ih =>
    have hd := twenty_two_le_reclen (h d List.mem_cons_self)
    have hrest := ih (p := p + d.reclen) fun e he => h e (List.mem_cons_of_mem _ he)
    rw [live_cons, List.length_append, length_bytesOf_cons]
    split
    · rw [List.length_singleton]
      omega
    · rw [List.length_nil]
      omega

theorem Filling.sortBlocks (h : Filling m buf len dpv list2 records) :
    SortBlocks 8 (live buf records).length dpv list2 := by
  have hcount := live_length_le (p := buf) h.wellFormed
  have hin := h.inside
  have hsmall := h.small
  have hdpv := h.dpvFits
  have hlist2 := h.list2Fits
  have hapart := h.blocksApart
  exact ⟨by decide, by omega, by omega, by omega, h.page, by omega⟩

theorem Filling.congr (h : Filling m buf len dpv list2 records) {m' : Memory}
    (hm : ∀ x, buf ≤ x → x < buf + len → m' x = m x) : Filling m' buf len dpv list2 records := by
  have hin := h.inside
  refine { h with held := ?_ }
  rw [← h.held, length_load]
  exact load_congr fun i hi => hm (buf + i) (by omega) (by omega)

/-- Both passes, and the blocks that `z_malloc` clears before and after the second. -/
theorem Filling.collected (h : Filling m buf len dpv list2 records) :
    ∃ m₁, scanEntries (some dpv) (buf + (bytesOf records).length)
        (buf + (bytesOf records).length - buf + 1)
        (zMalloc m (((live buf records).length + 1) * 8) (some dpv)) buf 0 =
        some (m₁, buf + (bytesOf records).length, (live buf records).length) ∧
      Laid 8 m₁ dpv ((live buf records).map (leBytes 8)) ∧
      ∀ x, buf ≤ x → x < buf + len → m₁ x = m x := by
  have hin := h.inside
  have hapart := h.dpvApart
  have hfits := h.fits
  have hcleared : ∀ x, buf ≤ x → x < buf + len →
      zMalloc m (((live buf records).length + 1) * 8) (some dpv) x = m x := by
    intro x hlo hhi
    rw [zMalloc]
    exact store_outside (by rw [List.length_replicate]; omega)
  have hrounds := length_le_bytes records
  generalize zMalloc m (((live buf records).length + 1) * 8) (some dpv) = m₀ at *
  have hscan : scanEntries (some dpv) (buf + (bytesOf records).length)
      (buf + (bytesOf records).length - buf + 1) m₀ buf 0 =
      some (stored m₀ 0 (live buf records) (some dpv), buf + (bytesOf records).length,
        0 + (live buf records).length) := by
    refine scanEntries_eq (h.congr hcleared).held h.aligned (fun a ha => ?_) (by omega)
    rw [← Option.mem_some.mp ha]
    omega
  rw [stored, Nat.zero_mul, Nat.zero_add, Nat.add_zero] at hscan
  refine ⟨_, hscan, storePtrs_laid ?_, ?_⟩
  · intro p hp
    have := live_inside hp
    omega
  · intro x hlo hhi
    rw [storePtrs_outside (by omega), hcleared x hlo hhi]

/-- The sort leaves the pointers in order in front of a null, and the buffer as it is. -/
theorem Filling.sorted (h : Filling m buf len dpv list2 records)
    (hlaid : Laid 8 m dpv ((live buf records).map (leBytes 8))) :
    ∃ r ps, zMergesort (zOpendirCompar m) m dpv (live buf records).length 8 (some list2) =
        some r ∧
      Stable (nameLe m) (live buf records) ps ∧ Sorted (nameLe m) ps ∧
      Laid 8 r.mem dpv (ps.map (leBytes 8)) ∧ ∀ x, buf ≤ x → x < buf + len → r.mem x = m x := by
  obtain ⟨r, hrun, -, hsort, hsame⟩ :=
    zMergesort_sorts (zOpendirCompar_comparator m) h.sortBlocks m
  have hfits := h.fits
  have hin := h.inside
  have hbefore := hlaid.elements_eq
  rw [List.length_map] at hbefore
  have hstable := hsort.stable
  rw [hbefore] at hstable
  obtain ⟨ps, hps, hstable⟩ := hstable.of_map (g := leValue) fun p hp => leValue_ptr (by
    have := live_inside hp
    omega)
  have hsorted := hsort.sorted
  rw [hps] at hsorted
  refine ⟨r, ps, hrun, hstable, List.pairwise_map.mp hsorted, ?_, ?_⟩
  · rw [← hps]
    exact laid_elements _ _ _
  · intro x hlo hhi
    have hdpv := h.dpvApart
    have hlist2 := h.list2Apart
    refine hsame x ?_ ?_
    · unfold wsize
      omega
    · omega

theorem Filling.untouched (h : Filling m buf len dpv list2 records) {ps : List ℕ}
    (hperm : ps.Perm (live buf records)) {m' : Memory} (hsame : SameButInodes ps m m')
    {q x : ℕ} {d : Dirent} (hd : (q, d) ∈ placed buf records) (hlo : q + 8 ≤ x)
    (hhi : x < q + d.reclen) : m' x = m x := by
  apply hsame
  intro p hp
  by_contra hin
  have := (h.owner hd (hperm.mem_iff.mp hp) (x := x) (by omega) hhi (by omega) (by omega)).1
  omega

theorem Filling.untouched_name (h : Filling m buf len dpv list2 records) {ps : List ℕ}
    (hperm : ps.Perm (live buf records)) {m' : Memory} (hsame : SameButInodes ps m m')
    {q : ℕ} {d : Dirent} (hd : (q, d) ∈ placed buf records) :
    CStringAt m' (dNameOf q) d.dName := by
  obtain ⟨hload, hw, -⟩ := h.entry hd
  have hstring := name_at hload hw
  have hlen : d.dName.length < d.name.length := length_dName_lt hw
  have hrec : d.reclen = 21 + d.name.length := rfl
  refine ⟨(load_congr fun i hi => ?_).trans hstring.bytes, hstring.noNul⟩
  apply h.untouched hperm hsame hd
  · rw [dNameOf]
    omega
  · rw [dNameOf]
    omega

theorem Filling.untouched_outside {ps : List ℕ} (hperm : ps.Perm (live buf records))
    {m' : Memory} (hsame : SameButInodes ps m m') {x : ℕ}
    (hx : x < buf ∨ buf + (bytesOf records).length ≤ x) : m' x = m x := by
  apply hsame
  intro p hp
  have := live_inside (hperm.mem_iff.mp hp)
  omega

theorem Filling.sheet (h : Filling m buf len dpv list2 records) {ps : List ℕ} {m₀ : Memory}
    (h₀ : Filling m₀ buf len dpv list2 records) (hperm : ps.Perm (live buf records))
    (hlaid : Laid 8 m dpv (ps.map (leBytes 8)))
    (hnull : loadPtr m (dpv + ps.length * 8) = 0) :
    ∀ m', SameButInodes ps m m' →
      Sheet dpv (nameLe m₀) (fun p => m (p + 20) = DT_WHT) ps m' := by
  intro m' hsame
  have hin := h.inside
  have hfits := h.fits
  have hapart := h.dpvApart
  have hcount := hperm.length_eq
  have houtside {x : ℕ} (hx : x < buf ∨ buf + (bytesOf records).length ≤ x) : m' x = m x :=
    Filling.untouched_outside hperm hsame hx
  have hentry {p : ℕ} (hp : p ∈ ps) : ∃ d, (p, d) ∈ placed buf records := by
    obtain ⟨d, hd, -⟩ := mem_live.mp (hperm.mem_iff.mp hp)
    exact ⟨d, hd⟩
  refine ⟨?_, ?_, ?_, ?_⟩
  · intro done p rest hsplit
    have hmem : p ∈ ps := by simp [hsplit]
    have hplace := live_inside (hperm.mem_iff.mp hmem)
    have hslot := hlaid
    rw [hsplit, List.map_append, laid_append, List.length_map] at hslot
    have hload : load m (dpv + done.length * 8) 8 = leBytes 8 p := hslot.2.1
    have hlen : ps.length = done.length + (rest.length + 1) := by simp [hsplit]
    rw [loadPtr_congr (m := m) fun x hlo hhi => houtside (by omega), loadPtr, loadWord, hload,
      leValue_ptr (by omega), BitVec.toNat_ofNat]
    omega
  · rw [loadPtr_congr (m := m) fun x hlo hhi => houtside (by omega), hnull]
  · intro p hp q hq
    obtain ⟨d, hd⟩ := hentry hp
    obtain ⟨e, he⟩ := hentry hq
    obtain ⟨-, hw, hfit⟩ := h.entry hd
    obtain ⟨-, hw', hfit'⟩ := h.entry he
    rw [zStrncmp_names (h.untouched_name hperm hsame hd) (h.untouched_name hperm hsame he) hw,
      equiv_names hfit' hfit (h₀.entry he).1 (h₀.entry hd).1 hw' hw, eq_comm]
  · intro p hp
    obtain ⟨d, hd⟩ := hentry hp
    have hlen := twenty_two_le_reclen (h.entry hd).2.1
    simp only at hlen
    rw [h.untouched hperm hsame hd (by omega) (by omega)]

theorem Filling.counted (h : Filling m buf len dpv list2 records) :
    scanEntries none (buf + (bytesOf records).length)
      (buf + (bytesOf records).length - buf + 1) m buf 0 =
      some (m, buf + (bytesOf records).length, (live buf records).length) := by
  have hrounds := length_le_bytes records
  have hno : ∀ a ∈ (none : Option ℕ), buf + (bytesOf records).length ≤ a + 0 * 8 ∨
      a + (0 + (live buf records).length) * 8 ≤ buf := by simp
  have hscan := scanEntries_eq h.held h.aligned hno
    (show records.length < buf + (bytesOf records).length - buf + 1 by omega)
  rwa [Nat.zero_add] at hscan

theorem Filling.roomForSort (h : Filling m buf len dpv list2 records) {m₁ : Memory}
    (hlaid : Laid 8 m₁ dpv ((live buf records).map (leBytes 8)))
    (hsame : ∀ x, buf ≤ x → x < buf + len → m₁ x = m x) :
    let m₂ := if (live buf records).length = 0 then m₁
      else zMalloc m₁ ((live buf records).length * 8 + PSIZE) (some list2)
    Laid 8 m₂ dpv ((live buf records).map (leBytes 8)) ∧
      ∀ x, buf ≤ x → x < buf + len → m₂ x = m x := by
  have hlist2 := h.list2Apart
  have hblocks := h.blocksApart
  intro m₂
  have hcleared {x : ℕ} (hx : x < list2 ∨ list2 + (live buf records).length * 8 + 8 ≤ x) :
      m₂ x = m₁ x := by
    simp only [m₂]
    split
    · rfl
    · apply store_outside
      rw [List.length_replicate, PSIZE]
      omega
  constructor
  · apply hlaid.congr
    intro x hlo hhi
    rw [List.length_map] at hhi
    exact hcleared (by omega)
  · intro x hlo hhi
    rw [hcleared (by omega), hsame x hlo hhi]

theorem fill_removes_duplicates (h : Filling m buf len dpv list2 records) (flags : BitVec 32) :
    ∃ m' size, scanSortZap m flags buf (buf + (bytesOf records).length) (some dpv) (some list2) =
        some (m', size) ∧ Filled m m' flags buf len records size := by
  have hcount := h.counted
  obtain ⟨m₁, hcollect, hlaid, hsame₁⟩ := h.collected
  have hfits := h.fits
  have hdpv := h.dpvApart
  obtain ⟨hlaid₂, hsame₂⟩ := h.roomForSort hlaid hsame₁
  generalize hm₂ : (if (live buf records).length = 0 then m₁
    else zMalloc m₁ ((live buf records).length * 8 + PSIZE) (some list2)) = m₂ at *
  have h₂ := h.congr hsame₂
  obtain ⟨r, ps, hrun, hstable, hsorted, hlaid₃, hsame₃⟩ := h₂.sorted hlaid₂
  have hcount' := hstable.perm.length_eq
  -- the null behind the last pointer
  have hsame₄ : ∀ x, buf ≤ x → x < buf + len →
      storePtr r.mem (dpv + (live buf records).length * 8) 0 x = m x := by
    intro x hlo hhi
    rw [storePtr_outside (by omega), hsame₃ x hlo hhi, hsame₂ x hlo hhi]
  have hlaid₄ : Laid 8 (storePtr r.mem (dpv + (live buf records).length * 8) 0) dpv
      (ps.map (leBytes 8)) := by
    apply hlaid₃.congr
    intro x _ hhi
    apply storePtr_outside
    rw [List.length_map] at hhi
    omega
  have h₄ := h.congr hsame₄
  have hsheet := h₄.sheet h₂ hstable.perm hlaid₄ (by rw [hcount', loadPtr_storePtr (by decide)])
  have hnonNull : ∀ p ∈ ps, p ≠ 0 := by
    intro p hp
    have := live_inside (hstable.perm.mem_iff.mp hp)
    have := h.nonNull
    omega
  obtain ⟨m₅, hzap, hzero⟩ := zapEntries_zeroes flags hsheet hnonNull (List.nil_append ps).symm
    (hstable.perm.nodup_iff.mpr (live_nodup _ _)) (show ∀ x ∈ (none : Option ℕ), x ∈ ps by simp)
  have hfilled := h₄.filled h₂ hstable hsorted hzero
  refine ⟨m₅, (bytesOf records).length, ?_, hfilled.zapped, ?_, rfl⟩
  · rw [scanSortZap, hcount]
    simp only [Option.bind_some, hcollect, hm₂, hrun]
    rw [hcount'] at hzap
    rw [List.length_nil] at hzap
    rw [hzap, Option.map_some, Nat.add_sub_cancel_left]
  · intro x hlo hhi
    rw [hfilled.rest x hlo hhi, hsame₄ x (by omega) hhi]

def threeEntries : List Dirent := [entry 5 8 98, entry 6 8 99, entry 7 8 98]

theorem fill_removes_duplicates_three :
    ∃ m' size, scanSortZap (store (fun _ => 0) 4096 (bytesOf threeEntries)) DTF_HIDEW 4096
        (4096 + (bytesOf threeEntries).length) (some 8192) (some 12288) = some (m', size) ∧
      Filled (store (fun _ => 0) 4096 (bytesOf threeEntries)) m' DTF_HIDEW 4096 1024
        threeEntries size := by
  refine fill_removes_duplicates ⟨load_store_same _ _ _, by decide, by decide, by decide,
    by decide, by decide, by decide, by decide, by decide, by decide, by decide, by decide,
    by decide⟩ _

end DirentFill
