import LibSystemCall.DirentFill

/-! # z_devname_r

The entries of a directory are looked up one by one until `z_lstat` gives the device. The path
of an entry is put together in an array on the stack, and the name that is found is copied out
by `z_strncpy`, which fills up to its count. -/
namespace DirentDevname

open ByteMemory DirentStream DirentFill StringMemmove

def MAXNAMLEN : ℕ := 255
def DIRENT_MAXPATHLEN : ℕ := 1024
def S_IFMT : BitVec 16 := 0xf000

def pathDev : List UInt8 := [0x2f, 0x64, 0x65, 0x76, 0x2f]

/-- Bytes, and where they have been written. -/
structure Object where
  bytes : Memory
  written : List ℕ

def Object.put (o : Object) (i : ℕ) (b : UInt8) : Object :=
  ⟨Function.update o.bytes i b, i :: o.written⟩

/-- A copy of `count` bytes one by one, where `advance` moves on in the source. -/
def copyLoop (advance : UInt8 → ℕ → ℕ) (src : Memory) : ℕ → Object → ℕ → ℕ → Object
  | 0, dest, _, _ => dest
  | count + 1, dest, d, s =>
    copyLoop advance src count (dest.put d (src s)) (d + 1) (advance (src s) s)

/-- It stays on the NUL of the source and writes on. -/
def zStrncpy (src : Memory) (count : ℕ) (dest : Object) (tmp s : ℕ) : Object :=
  copyLoop (fun c s => if c ≠ 0 then s + 1 else s) src count dest tmp s

structure Stat where
  rdev : BitVec 32
  mode : BitVec 16

/-- A record at `dp` of the memory. -/
structure Found where
  mem : Memory
  dp : ℕ

def Found.namlen (dirp : Found) : ℕ := (loadWord 16 dirp.mem (dirp.dp + 18)).toNat
def Found.dName (dirp : Found) : ℕ := dNameOf dirp.dp

/-- The calls that `z_devname_r` makes, on a state `σ` and streams `δ`. A call has no result if it
does not return. -/
structure DirCalls (σ δ : Type*) where
  opendir : σ → Option (σ × Option δ)
  readdir : σ → δ → Option (σ × δ × Option Found)
  lstat : σ → List UInt8 → σ × Option Stat
  closedir : σ → δ → σ

/-- The state, the arrays `_buf` and `buf`, and the result; `none` is the null pointer. -/
structure Result (σ : Type*) where
  state : σ
  path : Object
  buf : Object
  ret : Option ℕ

/-- `sizeof(_PATH_DEV) + MAXNAMLEN` -/
def pathSize : ℕ := pathDev.length + 1 + MAXNAMLEN

/-- `_buf`, which is at `frame`, in the memory `m`. -/
def laidOver (m : Memory) (path : Object) (frame : ℕ) : Memory := fun x =>
  if frame ≤ x ∧ x < frame + pathSize then path.bytes x else m x

/-- `z_memmove(_buf + sizeof(_PATH_DEV) - 1, dirp->d_name, dirp->d_namlen + 1)` -/
def moveName (dirp : Found) (path : Object) (frame : ℕ) : Object :=
  let d := frame + pathDev.length
  ⟨(zMemmove (laidOver dirp.mem path frame) d dirp.dName (dirp.namlen + 1)).1,
    stored d dirp.dName (dirp.namlen + 1) ++ path.written⟩

def pathText (path : Object) (frame : ℕ) : List UInt8 :=
  (load path.bytes frame pathSize).takeWhile fun c => c ≠ 0

section

variable {σ δ : Type*} (calls : DirCalls σ δ)

def devnameLoop (frame : ℕ) (dev : BitVec 32) (type : BitVec 16) (buf : ℕ) (len : ℤ) :
    ℕ → σ → δ → Object → Object → Option (Result σ)
  | 0, _, _, _, _ => none
  | fuel + 1, s, dp, path, out =>
    (calls.readdir s dp).bind fun (s, dp, dirp) =>
      match dirp with
      | none => some ⟨calls.closedir s dp, path, out, none⟩
      | some dirp =>
        let path := moveName dirp path frame
        match calls.lstat s (pathText path frame) with
        | (s, none) => devnameLoop frame dev type buf len fuel s dp path out
        | (s, some sb) =>
          if dev ≠ sb.rdev then devnameLoop frame dev type buf len fuel s dp path out
          else if type ≠ sb.mode &&& S_IFMT then
            devnameLoop frame dev type buf len fuel s dp path out
          else if (dirp.namlen + 1 : ℤ) > len then
            some ⟨calls.closedir s dp, path, out, none⟩
          else
            some ⟨calls.closedir s dp, path,
              zStrncpy dirp.mem DIRENT_MAXPATHLEN out buf dirp.dName, some buf⟩

/-- `stack` is what `_buf` holds at first. -/
def zDevnameR (fuel : ℕ) (s : σ) (stack : Memory) (frame : ℕ) (dev : BitVec 32)
    (type : BitVec 16) (out : Memory) (buf : ℕ) (len : ℤ) : Option (Result σ) :=
  let path := zStrncpy (store (fun _ => 0) 0 pathDev) pathDev.length ⟨stack, []⟩ frame 0
  (calls.opendir s).bind fun (s, dp) =>
    match dp with
    | none => some ⟨s, path, ⟨out, []⟩, none⟩
    | some dp => devnameLoop calls frame dev type buf len fuel s dp path ⟨out, []⟩

end

@[simp] theorem put_bytes_self (o : Object) (i : ℕ) (b : UInt8) : (o.put i b).bytes i = b :=
  Function.update_self ..

theorem put_bytes_ne {o : Object} {i j : ℕ} (b : UInt8) (h : j ≠ i) :
    (o.put i b).bytes j = o.bytes j := Function.update_of_ne h ..

theorem mem_put_written {o : Object} {i j : ℕ} {b : UInt8} :
    j ∈ (o.put i b).written ↔ j = i ∨ j ∈ o.written := List.mem_cons

section

variable {advance : UInt8 → ℕ → ℕ} {src : Memory} {count d s i : ℕ} {dest : Object}

theorem mem_copyLoop_written : i ∈ (copyLoop advance src count dest d s).written ↔
    i ∈ dest.written ∨ d ≤ i ∧ i < d + count := by
  induction count generalizing dest d s with
  | zero =>
    rw [copyLoop]
    exact ⟨.inl, fun h => h.resolve_right (by omega)⟩
  | succ count ih =>
    rw [copyLoop, ih, mem_put_written]
    constructor
    · rintro ((rfl | h) | h)
      · exact .inr (by omega)
      · exact .inl h
      · exact .inr (by omega)
    · rintro (h | h)
      · exact .inl (.inr h)
      · by_cases hi : i = d
        · exact .inl (.inl hi)
        · exact .inr (by omega)

theorem copyLoop_below (h : i < d) :
    (copyLoop advance src count dest d s).bytes i = dest.bytes i := by
  induction count generalizing dest d s with
  | zero => rfl
  | succ count ih =>
    rw [copyLoop, ih (by omega)]
    exact put_bytes_ne _ (by omega)

theorem copyLoop_first : (copyLoop advance src (count + 1) dest d s).bytes d = src s := by
  rw [copyLoop, copyLoop_below (Nat.lt_succ_self d), put_bytes_self]

theorem zStrncpy_string {t : List UInt8} (h : CStringAt src s t) (hlen : t.length < count) :
    CStringAt (zStrncpy src count dest d s).bytes d t := by
  induction t generalizing count dest d s with
  | nil =>
    obtain ⟨count, rfl⟩ := Nat.exists_eq_add_of_lt hlen
    rw [cStringAt_nil, zStrncpy, copyLoop_first]
    exact cStringAt_nil.mp h
  | cons b t ih =>
    obtain ⟨hb, hne, htail⟩ := cStringAt_cons.mp h
    obtain ⟨count, rfl⟩ : ∃ k, count = k + 1 := ⟨count - 1, by omega⟩
    refine cStringAt_cons.mpr ⟨copyLoop_first.trans hb, hne, ?_⟩
    rw [zStrncpy, copyLoop, hb, if_pos hne]
    exact ih htail (Nat.lt_of_succ_lt_succ hlen)

theorem load_zStrncpy (h : 0 ∉ load src s count) :
    load (zStrncpy src count dest d s).bytes d count = load src s count := by
  induction count generalizing dest d s with
  | zero => rfl
  | succ count ih =>
    rw [load_cons, List.mem_cons, not_or] at h
    rw [load_cons, load_cons, zStrncpy, copyLoop_first, copyLoop, if_pos fun h0 => h.1 h0.symm]
    exact congrArg _ (ih h.2)

end

theorem takeWhile_string {m : Memory} {a n : ℕ} {t : List UInt8} (h : CStringAt m a t)
    (hn : t.length < n) : (load m a n).takeWhile (fun c => c ≠ 0) = t := by
  induction t generalizing a n with
  | nil =>
    obtain ⟨n, rfl⟩ := Nat.exists_eq_add_of_lt hn
    rw [load_cons, cStringAt_nil.mp h]
    rfl
  | cons b t ih =>
    obtain ⟨hb, hne, htail⟩ := cStringAt_cons.mp h
    obtain ⟨n, rfl⟩ : ∃ k, n = k + 1 := ⟨n - 1, by omega⟩
    rw [load_cons, hb, List.takeWhile_cons_of_pos (by simpa using hne),
      ih htail (Nat.lt_of_succ_lt_succ hn)]

theorem cStringAt_append {m : Memory} {a : ℕ} {xs t : List UInt8} (hxs : load m a xs.length = xs)
    (hnul : 0 ∉ xs) (ht : CStringAt m (a + xs.length) t) : CStringAt m a (xs ++ t) := by
  constructor
  · rw [List.length_append, Nat.add_assoc, load_add, hxs, ht.bytes, List.append_assoc]
  · rw [List.mem_append, not_or]
    exact ⟨hnul, ht.noNul⟩

theorem zStrncpy_directory (stack : Memory) (frame : ℕ) :
    load (zStrncpy (store (fun _ => 0) 0 pathDev) pathDev.length ⟨stack, []⟩ frame 0).bytes frame
      pathDev.length = pathDev := (load_zStrncpy (by decide)).trans rfl

def InPath (frame i : ℕ) : Prop := frame ≤ i ∧ i < frame + pathSize

theorem zStrncpy_inPath (stack : Memory) (frame : ℕ) :
    ∀ i ∈ (zStrncpy (store (fun _ => 0) 0 pathDev) pathDev.length ⟨stack, []⟩ frame 0).written,
      InPath frame i := by
  intro i hi
  rcases mem_copyLoop_written.mp hi with h | h
  · exact absurd h List.not_mem_nil
  · have hroom : pathDev.length ≤ pathSize := by decide
    exact ⟨h.1, by omega⟩

structure WellNamed (d : Dirent) : Prop where
  ends : 0 ∈ d.name
  namlen : d.namlen.toNat = d.dName.length
  short : d.dName.length ≤ MAXNAMLEN

theorem WellNamed.wellFormed {d : Dirent} (h : WellNamed d) : WellFormed d :=
  ⟨h.ends, Nat.lt_of_le_of_lt h.short (by decide)⟩

theorem moveName_text {dirp : Found} {path : Object} {frame : ℕ} {t : List UInt8}
    (hdir : load path.bytes frame pathDev.length = pathDev)
    (ht : CStringAt dirp.mem dirp.dName t) (hnamlen : dirp.namlen = t.length)
    (hshort : t.length ≤ MAXNAMLEN)
    (hapart : frame + pathSize ≤ dirp.dName ∨ dirp.dName + (t.length + 1) ≤ frame) :
    load (moveName dirp path frame).bytes frame pathDev.length = pathDev ∧
      pathText (moveName dirp path frame) frame = pathDev ++ t := by
  have hroom : pathDev.length + (t.length + 1) ≤ pathSize := by
    unfold pathSize
    omega
  have hbytes : (moveName dirp path frame).bytes = moved (laidOver dirp.mem path frame)
      (frame + pathDev.length) dirp.dName 0
      (t.length + 1 + overrun (frame + pathDev.length) dirp.dName (t.length + 1)) := by
    rw [moveName, hnamlen]
    exact congrArg Prod.fst (zMemmove_eq ..)
  have hdir' : load (moveName dirp path frame).bytes frame pathDev.length = pathDev := by
    refine (load_congr fun i hi => ?_).trans hdir
    rw [hbytes, moved_apply, if_neg (by omega), laidOver, if_pos (by omega)]
  have hname : CStringAt (moveName dirp path frame).bytes (frame + pathDev.length) t := by
    refine ⟨?_, ht.noNul⟩
    rw [← ht.bytes, hbytes]
    refine load_congr fun i hi => ?_
    rw [moved_apply, if_pos (by omega), laidOver, if_neg (by omega)]
    congr 1
    omega
  refine ⟨hdir', takeWhile_string (cStringAt_append hdir' (by decide) hname) ?_⟩
  rw [List.length_append]
  omega

/-- Names of 254 and 255 characters take the last word store past the array, where both addresses
have the same low bits. -/
theorem stored_inPath_iff {frame dName n : ℕ} (hdName : dName % 4 = 1)
    (hapart : frame + pathSize ≤ dName ∨ dName + (n + 1) ≤ frame) (hshort : n ≤ MAXNAMLEN) :
    (∀ i ∈ stored (frame + pathDev.length) dName (n + 1), InPath frame i) ↔
      (frame % 4 = 0 → n ≤ 253) := by
  have hlength : pathDev.length = 5 := rfl
  have hsize : pathSize = 261 := rfl
  have hmax : MAXNAMLEN = 255 := rfl
  have hne : frame + pathDev.length ≠ dName := by omega
  have hover : (n + 1 + overrun (frame + pathDev.length) dName (n + 1) ≤ 256) ↔
      (frame % 4 = 0 → n ≤ 253) := by
    unfold overrun ReachesWordLoop alignment wsize
    split_ifs <;> omega
  rw [← hover]
  simp only [mem_stored hne, InPath]
  constructor
  · intro h
    have hlast := h (frame + pathDev.length + (n + overrun (frame + pathDev.length) dName (n + 1)))
      (by omega)
    omega
  · rintro h i hi
    omega

/-- `/dev/` opened as in `o` and read as in `env`; `lstat` is what the kernel tells of a path. -/
def streamCalls (rest : Option Block → Option Stream) (o : Opening) (mem : Memory) (env : Env)
    (fuel : ℕ) (lstat : List UInt8 → Option Stat) : DirCalls Unit Stream where
  opendir _ := some ((), zOpendir rest o mem)
  readdir _ s := (zReaddir env fuel s).map fun (s, dp) => ((), s, dp.map fun dp => ⟨s.mem, dp⟩)
  lstat _ path := ((), lstat path)
  closedir _ _ := ()

def isDevice (lstat : List UInt8 → Option Stat) (dev : BitVec 32) (type : BitVec 16)
    (d : Dirent) : Bool :=
  match lstat (pathDev ++ d.dName) with
  | none => false
  | some sb => sb.rdev = dev ∧ sb.mode &&& S_IFMT = type

/-- The entries up to the first one that is the device. -/
def lookedAt (p : Dirent → Bool) : List Dirent → List Dirent
  | [] => []
  | d :: ds => d :: if p d then [] else lookedAt p ds

theorem devnameLoop_entry {σ δ : Type*} {calls : DirCalls σ δ} {s s₁ s₂ : σ} {dp dp' : δ}
    {e : Found} (hread : calls.readdir s dp = some (s₁, dp', some e)) {d : Dirent}
    (hlen : e.namlen = d.dName.length) {path : Object} {frame : ℕ}
    {lstat : List UInt8 → Option Stat}
    (hstat : calls.lstat s₁ (pathText (moveName e path frame) frame) =
      (s₂, lstat (pathDev ++ d.dName)))
    (dev : BitVec 32) (type : BitVec 16) (buf : ℕ) (len : ℤ) (n : ℕ) (out : Object) :
    devnameLoop calls frame dev type buf len (n + 1) s dp path out =
      if isDevice lstat dev type d then
        some (if (d.dName.length + 1 : ℤ) ≤ len then
          ⟨calls.closedir s₂ dp', moveName e path frame,
            zStrncpy e.mem DIRENT_MAXPATHLEN out buf e.dName, some buf⟩
        else ⟨calls.closedir s₂ dp', moveName e path frame, out, none⟩)
      else devnameLoop calls frame dev type buf len n s₂ dp' (moveName e path frame) out := by
  rw [devnameLoop, hread, Option.bind_some]
  dsimp only
  rw [hlen, hstat]
  cases hsb : lstat (pathDev ++ d.dName) with
  | none =>
    have hno : ¬ isDevice lstat dev type d = true := by simp [isDevice, hsb]
    rw [if_neg hno]
  | some sb =>
    have hdevice :
        isDevice lstat dev type d = true ↔ sb.rdev = dev ∧ sb.mode &&& S_IFMT = type := by
      simp [isDevice, hsb]
    dsimp only
    by_cases hrdev : dev = sb.rdev
    · rw [if_neg (not_not_intro hrdev)]
      by_cases htype : type = sb.mode &&& S_IFMT
      · rw [if_neg (not_not_intro htype), if_pos (hdevice.mpr ⟨hrdev.symm, htype.symm⟩)]
        by_cases hfit : (d.dName.length + 1 : ℤ) ≤ len
        · rw [if_neg (not_lt.mpr hfit), if_pos hfit]
        · rw [if_pos (not_le.mp hfit), if_neg hfit]
      · rw [if_pos htype, if_neg fun h => htype (hdevice.mp h).2.symm]
    · rw [if_pos hrdev, if_neg fun h => hrdev (hdevice.mp h).1.symm]

def KeepsBuffer (P : Block → ℕ → Prop) : Turn → Prop
  | .again s | .done s _ => P s.dir.buf s.dir.len

/-- An entry that is returned begins at a multiple of four, and ends where the stream stands. -/
def EndsAtLoc : Turn → Prop
  | .again _ => True
  | .done s dp => ∀ q ∈ dp, q % 4 = 0 ∧ s.dir.buf.addr ≤ q ∧
      q + (loadWord 16 s.mem (q + 16)).toNat = s.dir.buf.addr + s.dir.loc

theorem takeEntry_turn {P : Block → ℕ → Prop} {s : Stream} (h : P s.dir.buf s.dir.len) :
    KeepsBuffer P (takeEntry s) ∧ EndsAtLoc (takeEntry s) := by
  unfold takeEntry
  dsimp only
  split
  · exact ⟨h, nofun⟩
  · next haligned =>
    split
    · exact ⟨h, nofun⟩
    · split
      · exact ⟨h, trivial⟩
      · split
        · exact ⟨h, trivial⟩
        · refine ⟨h, ?_⟩
          rintro q hq
          obtain rfl := Option.mem_some_iff.mp hq
          exact ⟨not_not.mp haligned, Nat.le_add_right .., Nat.add_assoc ..⟩

theorem readBatch_buffer {P : Block → ℕ → Prop}
    (hblock : ∀ i b, env.block i = some b → P b READDIR_LARGE_SIZE) {s : Stream}
    (h : P s.dir.buf s.dir.len) : P (readBatch env s).dir.buf (readBatch env s).dir.len := by
  have hgrow : P (grow env s).dir.buf (grow env s).dir.len := by
    unfold grow
    split
    · cases hb : env.block s.reads with
      | none => exact h
      | some b => exact hblock _ _ hb
    · exact h
  have hread : ∀ u : Stream, (zGetdirentries env u).1.dir = u.dir := by
    intro u
    unfold zGetdirentries
    split <;> rfl
  simp only [readBatch, hread]
  exact hgrow

theorem readdirTurn_turn {P : Block → ℕ → Prop}
    (hblock : ∀ i b, env.block i = some b → P b READDIR_LARGE_SIZE) {s : Stream}
    (h : P s.dir.buf s.dir.len) :
    KeepsBuffer P (readdirTurn env s) ∧ EndsAtLoc (readdirTurn env s) := by
  unfold readdirTurn
  dsimp only
  split
  · exact ⟨h, nofun⟩
  · generalize hu : (if (s.dir.loc : ℤ) ≥ s.dir.size then
      { s with dir := { s.dir.skipped with loc := 0 } } else s : Stream) = u
    have hbuf : P u.dir.buf u.dir.len := by
      rw [← hu]
      split <;> exact h
    split
    · split
      · exact ⟨readBatch_buffer hblock hbuf, nofun⟩
      · exact takeEntry_turn (readBatch_buffer hblock hbuf)
    · exact takeEntry_turn hbuf

theorem zReaddir_turn {P : Block → ℕ → Prop}
    (hblock : ∀ i b, env.block i = some b → P b READDIR_LARGE_SIZE) {fuel : ℕ} {s u : Stream}
    {dp : Option ℕ} (h : P s.dir.buf s.dir.len) (hrun : zReaddir env fuel s = some (u, dp)) :
    KeepsBuffer P (.done u dp) ∧ EndsAtLoc (.done u dp) := by
  induction fuel generalizing s with
  | zero => cases hrun
  | succ fuel ih =>
    have hturn := readdirTurn_turn hblock h
    rw [zReaddir] at hrun
    split at hrun
    · next v hv =>
      rw [hv] at hturn
      exact ih hturn.1 hrun
    · next v q hv =>
      rw [hv] at hturn
      obtain ⟨rfl, rfl⟩ := Prod.mk.inj (Option.some.inj hrun)
      exact hturn

def Apart (frame : ℕ) (b : Block) (len : ℕ) : Prop :=
  frame + pathSize ≤ b.addr ∨ b.addr + len ≤ frame

theorem found_namlen {m : Memory} {dp : ℕ} {d : Dirent} (h : load m dp d.reclen = d.bytes)
    (hw : WellNamed d) : (⟨m, dp⟩ : Found).namlen = d.dName.length := by
  simp only [Dirent.bytes, List.append_assoc] at h
  obtain ⟨-, h⟩ := load_append_inj h
  obtain ⟨-, h⟩ := load_append_inj h
  obtain ⟨-, h⟩ := load_append_inj h
  obtain ⟨hnamlen, -⟩ := load_append_inj h
  simp only [length_leBytes] at hnamlen
  rw [← hw.namlen]
  exact congrArg BitVec.toNat (loadWord_leBytes rfl hnamlen)

/-- The name of a record that ends inside the stream's block lies apart from the array. -/
theorem Apart.name {frame : ℕ} {u : Stream} {dp : ℕ} {d : Dirent}
    (h : Apart frame u.dir.buf u.dir.len) (hw : WellFormed d)
    (hload : load u.mem dp d.reclen = d.bytes) (hfits : u.dir.loc ≤ u.dir.len)
    (hfrom : u.dir.buf.addr ≤ dp)
    (hto : dp + (loadWord 16 u.mem (dp + 16)).toNat = u.dir.buf.addr + u.dir.loc) :
    frame + pathSize ≤ (⟨u.mem, dp⟩ : Found).dName ∨
      (⟨u.mem, dp⟩ : Found).dName + (d.dName.length + 1) ≤ frame := by
  have hlong := length_dName_lt hw
  have hreclen : d.reclen = 21 + d.name.length := rfl
  have hdName : (⟨u.mem, dp⟩ : Found).dName = dp + 21 := rfl
  rw [(stored_of_load hload).reclen] at hto
  rw [hdName]
  rcases h with hbelow | habove
  · left
    omega
  · right
    omega

/-- What the call does for the first entry that is the device, or without one. -/
def Ends (out : Memory) (buf : ℕ) (len : ℤ) (r : Result Unit) : Option Dirent → Prop
  | none => r.ret = none ∧ r.buf = ⟨out, []⟩
  | some d =>
    if (d.dName.length + 1 : ℤ) ≤ len then
      r.ret = some buf ∧ ∃ m name, CStringAt m name d.dName ∧
        r.buf = zStrncpy m DIRENT_MAXPATHLEN ⟨out, []⟩ buf name
    else r.ret = none ∧ r.buf = ⟨out, []⟩

section

variable {env : Env} {batches : List (List Dirent)} (rest : Option Block → Option Stream)
  (o : Opening) (mem : Memory) (lstat : List UInt8 → Option Stat) (dev : BitVec 32)
  (type : BitVec 16) (out : Memory) (buf : ℕ) (len : ℤ) {frame : ℕ}

structure LoopEnds (frame : ℕ) (out : Memory) (buf : ℕ) (len : ℤ) (p : Dirent → Bool)
    (ds : List Dirent) (path : Object) (r : Result Unit) : Prop where
  path : (∀ i ∈ r.path.written, InPath frame i) ↔ (∀ i ∈ path.written, InPath frame i) ∧
    ∀ d ∈ lookedAt p ds, frame % 4 = 0 → d.dName.length ≤ 253
  ends : Ends out buf len r (ds.find? p)

theorem moveName_inPath_iff {dirp : Found} {path : Object} {d : Dirent}
    (hnamlen : dirp.namlen = d.dName.length) (haligned : dirp.dp % 4 = 0)
    (hapart : frame + pathSize ≤ dirp.dName ∨ dirp.dName + (d.dName.length + 1) ≤ frame)
    (hshort : d.dName.length ≤ MAXNAMLEN) :
    (∀ i ∈ (moveName dirp path frame).written, InPath frame i) ↔
      (frame % 4 = 0 → d.dName.length ≤ 253) ∧ ∀ i ∈ path.written, InPath frame i := by
  have hdName : dirp.dName % 4 = 1 := by
    unfold Found.dName dNameOf
    omega
  have hstored := stored_inPath_iff hdName hapart hshort
  rw [← hstored, moveName, hnamlen]
  exact List.forall_mem_append

theorem devnameLoop_ends (hl : Listing env batches) {ds : List Dirent}
    (hnamed : ∀ d ∈ ds, WellNamed d)
    (hblocks : ∀ i b, env.block i = some b → Apart frame b READDIR_LARGE_SIZE) {s : Stream}
    {left : List Dirent} {atEnd : Bool} (h : At env batches s left atEnd)
    (hbuf : Apart frame s.dir.buf s.dir.len) {k n : ℕ}
    (hk : (pending batches s left).length < k) (hds : visible (pending batches s left) = ds)
    (hn : ds.length < n) {path : Object}
    (hdir : load path.bytes frame pathDev.length = pathDev) :
    ∃ r, devnameLoop (streamCalls rest o mem env k lstat) frame dev type buf len n () s path
        ⟨out, []⟩ = some r ∧ LoopEnds frame out buf len (isDevice lstat dev type) ds path r := by
  induction ds generalizing s left atEnd n path with
  | nil =>
    obtain ⟨n, rfl⟩ := Nat.exists_eq_add_of_lt hn
    obtain ⟨u, r, left', atEnd', hrun, -, -, -, hret⟩ := zReaddir_returns hl h hk
    rw [hds] at hret
    obtain rfl : r = none := hret
    refine ⟨⟨(), path, ⟨out, []⟩, none⟩, ?_, ?_, rfl, rfl⟩
    · simp [devnameLoop, streamCalls, hrun]
    · simp [lookedAt]
  | cons d ds ih =>
    obtain ⟨n, rfl⟩ : ∃ j, n = j + 1 := ⟨n - 1, by omega⟩
    obtain ⟨u, r, left', atEnd', hrun, hat, hle, hvis, hret⟩ := zReaddir_returns hl h hk
    rw [hds] at hret hvis
    obtain ⟨dp, rfl, hload⟩ := hret
    obtain ⟨hkept, hplace⟩ := zReaddir_turn hblocks hbuf hrun
    obtain ⟨haligned, hfrom, hto⟩ := hplace dp rfl
    have hd := hnamed d List.mem_cons_self
    have hnamlen := found_namlen hload hd
    have hname : CStringAt u.mem (⟨u.mem, dp⟩ : Found).dName d.dName := name_at hload hd.wellFormed
    have hfits : u.dir.loc ≤ u.dir.len := (Nat.le_add_right ..).trans hat.fits
    have hapart := hkept.name hd.wellFormed hload hfits hfrom hto
    obtain ⟨hready, htext⟩ := moveName_text hdir hname hnamlen hd.short hapart
    have hwritten := @moveName_inPath_iff _ _ path _ hnamlen haligned hapart hd.short
    obtain ⟨w, hnext, hends⟩ := ih (fun e he => hnamed e (List.mem_cons_of_mem d he)) hat hkept
      (Nat.lt_of_le_of_lt hle hk) hvis (Nat.lt_of_succ_lt_succ hn) hready
    have hread : (streamCalls rest o mem env k lstat).readdir () s =
        some ((), u, some ⟨u.mem, dp⟩) := by
      simp only [streamCalls, hrun, Option.map_some]
    have hstat : (streamCalls rest o mem env k lstat).lstat ()
        (pathText (moveName ⟨u.mem, dp⟩ path frame) frame) = ((), lstat (pathDev ++ d.dName)) := by
      rw [htext]
      rfl
    rw [devnameLoop_entry hread hnamlen hstat]
    by_cases hdevice : isDevice lstat dev type d = true
    · have hpath : (∀ i ∈ (moveName ⟨u.mem, dp⟩ path frame).written, InPath frame i) ↔
          (∀ i ∈ path.written, InPath frame i) ∧
            ∀ e ∈ lookedAt (isDevice lstat dev type) (d :: ds), frame % 4 = 0 →
              e.dName.length ≤ 253 := by
        rw [hwritten, lookedAt, if_pos hdevice]
        simp only [List.mem_singleton, forall_eq]
        exact And.comm
      rw [if_pos hdevice]
      by_cases hfit : (d.dName.length + 1 : ℤ) ≤ len
      · rw [if_pos hfit]
        refine ⟨_, rfl, hpath, ?_⟩
        rw [List.find?_cons_of_pos hdevice, Ends, if_pos hfit]
        dsimp only
        exact ⟨rfl, u.mem, _, hname, rfl⟩
      · rw [if_neg hfit]
        refine ⟨_, rfl, hpath, ?_⟩
        rw [List.find?_cons_of_pos hdevice, Ends, if_neg hfit]
        exact ⟨rfl, rfl⟩
    · have hlook : lookedAt (isDevice lstat dev type) (d :: ds) =
          d :: lookedAt (isDevice lstat dev type) ds := by
        rw [lookedAt, if_neg hdevice]
      rw [if_neg hdevice]
      refine ⟨w, hnext, ?_, ?_⟩
      · rw [hends.path, hwritten, hlook, List.forall_mem_cons]
        tauto
      · rw [List.find?_cons_of_neg hdevice]
        exact hends.ends

end

/-- What `z_devname_r` is for: only its own array and the first `len` bytes of the buffer are
written, and they hold the name of the first entry that is the device, if it fits. -/
structure Correct (frame buf : ℕ) (len : ℤ) (r : Result Unit) (first : Option Dirent) :
    Prop where
  path : ∀ i ∈ r.path.written, InPath frame i
  within : ∀ i ∈ r.buf.written, buf ≤ i ∧ (i : ℤ) < buf + len
  named : ∀ d, first = some d → (d.dName.length + 1 : ℤ) ≤ len →
    r.ret = some buf ∧ CStringAt r.buf.bytes buf d.dName
  null : (∀ d, first = some d → len < (d.dName.length + 1 : ℤ)) → r.ret = none

theorem Ends.correct_iff {out : Memory} {frame buf : ℕ} {len : ℤ} {r : Result Unit}
    {first : Option Dirent} (h : Ends out buf len r first)
    (hnamed : ∀ d, first = some d → WellNamed d) :
    Correct frame buf len r first ↔ (∀ i ∈ r.path.written, InPath frame i) ∧
      ∀ d, first = some d → (d.dName.length + 1 : ℤ) ≤ len → (DIRENT_MAXPATHLEN : ℤ) ≤ len := by
  constructor
  · intro hc
    refine ⟨hc.path, ?_⟩
    rintro d rfl hfit
    rw [Ends, if_pos hfit] at h
    obtain ⟨-, m, name, -, hbuf⟩ := h
    have hlast : buf + 1023 ∈ r.buf.written := by
      rw [hbuf]
      exact mem_copyLoop_written.mpr (.inr ⟨by omega, by simp [DIRENT_MAXPATHLEN]⟩)
    have hin := (hc.within _ hlast).2
    simp only [DIRENT_MAXPATHLEN]
    push_cast at hin ⊢
    omega
  · rintro ⟨hpath, hlen⟩
    refine ⟨hpath, ?_, ?_, ?_⟩
    · intro i hi
      cases hfirst : first with
      | none =>
        rw [hfirst] at h
        rw [h.2] at hi
        exact absurd hi List.not_mem_nil
      | some d =>
        rw [hfirst, Ends] at h
        split at h
        · next hfit =>
          obtain ⟨-, m, name, -, hbuf⟩ := h
          have hlong := hlen d hfirst hfit
          rw [hbuf] at hi
          rcases mem_copyLoop_written.mp hi with hold | hnew
          · exact absurd hold List.not_mem_nil
          · omega
        · rw [h.2] at hi
          exact absurd hi List.not_mem_nil
    · rintro d rfl hfit
      rw [Ends, if_pos hfit] at h
      obtain ⟨hret, m, name, hname, hbuf⟩ := h
      refine ⟨hret, ?_⟩
      rw [hbuf]
      refine zStrncpy_string hname (Nat.lt_of_le_of_lt (hnamed d rfl).short ?_)
      decide
    · intro hnone
      cases hfirst : first with
      | none =>
        rw [hfirst] at h
        exact h.1
      | some d =>
        have hfit : ¬ (d.dName.length + 1 : ℤ) ≤ len := not_le.mpr (hnone d hfirst)
        rw [hfirst, Ends, if_neg hfit] at h
        exact h.1

section

variable {rest : Option Block → Option Stream} {o : Opening} {mem : Memory} {s : Stream} {env : Env}
  {batches : List (List Dirent)} {frame : ℕ}

theorem zDevnameR_ends (hopen : zOpendir rest o mem = some s)
    (hplain : ∀ flags, o.statfs = some flags → flags &&& MNT_UNION = 0)
    (hl : Listing env batches) (hnamed : ∀ d ∈ visible batches.flatten, WellNamed d)
    (hbuf : Apart frame s.dir.buf s.dir.len)
    (hblocks : ∀ i b, env.block i = some b → Apart frame b READDIR_LARGE_SIZE)
    (lstat : List UInt8 → Option Stat) (stack : Memory) (dev : BitVec 32) (type : BitVec 16)
    (out : Memory) (buf : ℕ) (len : ℤ) :
    ∃ enough, ∀ fuel ≥ enough, ∃ r,
      zDevnameR (streamCalls rest o mem env fuel lstat) fuel () stack frame dev type out buf len =
          some r ∧
        ((∀ i ∈ r.path.written, InPath frame i) ↔
          ∀ d ∈ lookedAt (isDevice lstat dev type) (visible batches.flatten),
            frame % 4 = 0 → d.dName.length ≤ 253) ∧
        Ends out buf len r ((visible batches.flatten).find? (isDevice lstat dev type)) := by
  obtain ⟨b, rfl⟩ := zOpendir_plain hopen hplain
  refine ⟨batches.flatten.length + 1, fun fuel hfuel => ?_⟩
  have hvisible : (visible batches.flatten).length < fuel :=
    Nat.lt_of_le_of_lt (List.length_filter_le _ _) hfuel
  obtain ⟨r, hrun, hends⟩ := devnameLoop_ends rest o mem lstat dev type out buf len hl hnamed
    hblocks (new_at env batches b mem) hbuf hfuel rfl hvisible (zStrncpy_directory stack frame)
  have hopendir : (streamCalls rest o mem env fuel lstat).opendir () =
      some ((), some ⟨⟨0, 0, b, READDIR_INITIAL_SIZE, openFlags⟩, mem, 0⟩) := by
    simp only [streamCalls, hopen]
  refine ⟨r, ?_, ?_, hends.ends⟩
  · rw [zDevnameR, hopendir]
    exact hrun
  · rw [hends.path]
    exact and_iff_right (zStrncpy_inPath stack frame)

/-- The call is correct exactly if no entry that it looks at has a name of more than 253 characters
(with the array at a multiple of four), and no entry is the device, or the name of the first one
does not fit, or the buffer has 1024 bytes. -/
theorem devnameR_correct_iff (hopen : zOpendir rest o mem = some s)
    (hplain : ∀ flags, o.statfs = some flags → flags &&& MNT_UNION = 0)
    (hl : Listing env batches) (hnamed : ∀ d ∈ visible batches.flatten, WellNamed d)
    (hbuf : Apart frame s.dir.buf s.dir.len)
    (hblocks : ∀ i b, env.block i = some b → Apart frame b READDIR_LARGE_SIZE)
    (lstat : List UInt8 → Option Stat) (stack : Memory) (dev : BitVec 32) (type : BitVec 16)
    (out : Memory) (buf : ℕ) (len : ℤ) :
    let first := (visible batches.flatten).find? (isDevice lstat dev type)
    ∃ enough, ∀ fuel ≥ enough, ∃ r,
      zDevnameR (streamCalls rest o mem env fuel lstat) fuel () stack frame dev type out buf len =
          some r ∧
        (Correct frame buf len r first ↔
          (∀ d ∈ lookedAt (isDevice lstat dev type) (visible batches.flatten),
            frame % 4 = 0 → d.dName.length ≤ 253) ∧
          ∀ d, first = some d → (d.dName.length + 1 : ℤ) ≤ len → 1024 ≤ len) := by
  intro first
  obtain ⟨enough, h⟩ := zDevnameR_ends hopen hplain hl hnamed hbuf hblocks lstat stack dev type out
    buf len
  refine ⟨enough, fun fuel hfuel => ?_⟩
  obtain ⟨r, hrun, hpath, hends⟩ := h fuel hfuel
  refine ⟨r, hrun, ?_⟩
  rw [hends.correct_iff fun d hd => hnamed d (List.mem_of_find?_eq_some hd), hpath]
  rfl

end

/-! The terminal `b`, in a directory with a deleted entry and a whiteout. -/

def terminal : Dirent := entry 5 8 98

def terminalStat (_ : List UInt8) : Option Stat := some ⟨7, 0x2000⟩

theorem terminal_opened : zOpendir (fun _ => none) plainDirectory (fun _ => 0) =
    some ⟨⟨0, 0, ⟨0x10000, rfl⟩, 2048, openFlags⟩, fun _ => 0, 0⟩ := rfl

theorem terminal_visible : visible twoBatches.flatten = [terminal] := rfl

theorem terminal_named : ∀ d ∈ visible twoBatches.flatten, WellNamed d := by
  rw [terminal_visible]
  rintro d hd
  obtain rfl := List.mem_singleton.mp hd
  exact ⟨by decide, by decide, by decide⟩

theorem terminal_found :
    (visible twoBatches.flatten).find? (isDevice terminalStat 7 0x2000) = some terminal := by
  rw [terminal_visible]
  rfl

theorem plainDirectory_plain :
    ∀ flags, plainDirectory.statfs = some flags → flags &&& MNT_UNION = 0 := by
  intro flags h
  obtain rfl := Option.some.inj h
  rfl

theorem terminal_lookedAt :
    lookedAt (isDevice terminalStat 7 0x2000) (visible twoBatches.flatten) = [terminal] := by
  rw [terminal_visible]
  rfl

theorem twoReads_apart (frame : ℕ) :
    ∀ i b, twoReads.block i = some b → Apart frame b READDIR_LARGE_SIZE := nofun

/-- A buffer of 255 bytes, as `z_devname` has it. -/
theorem terminal_written_outside : ∃ enough, ∀ fuel ≥ enough, ∃ r,
    zDevnameR (streamCalls (fun _ => none) plainDirectory (fun _ => 0) twoReads fuel terminalStat)
        fuel () (fun _ => 0) 0x7000 7 0x2000 (fun _ => 0) 0x4000 255 = some r ∧
      ¬ Correct 0x7000 0x4000 255 r (some terminal) := by
  obtain ⟨enough, h⟩ := zDevnameR_ends terminal_opened plainDirectory_plain twoReads_listing
    terminal_named (.inl (by decide)) (twoReads_apart 0x7000) terminalStat (fun _ => 0) 7 0x2000
    (fun _ => 0) 0x4000 255
  refine ⟨enough, fun fuel hfuel => ?_⟩
  obtain ⟨r, hrun, -, hends⟩ := h fuel hfuel
  rw [terminal_found] at hends
  refine ⟨r, hrun, fun hc => ?_⟩
  have hlong := ((hends.correct_iff fun d hd => ?_).mp hc).2 terminal rfl (by decide)
  · exact absurd hlong (by decide)
  · exact terminal_named d (List.mem_of_find?_eq_some (terminal_found.trans hd))

theorem terminal_correct : ∃ enough, ∀ fuel ≥ enough, ∃ r,
    zDevnameR (streamCalls (fun _ => none) plainDirectory (fun _ => 0) twoReads fuel terminalStat)
        fuel () (fun _ => 0) 0x7000 7 0x2000 (fun _ => 0) 0x4000 1024 = some r ∧
      Correct 0x7000 0x4000 1024 r (some terminal) := by
  obtain ⟨enough, h⟩ := devnameR_correct_iff terminal_opened plainDirectory_plain twoReads_listing
    terminal_named (.inl (by decide)) (twoReads_apart 0x7000) terminalStat (fun _ => 0) 7 0x2000
    (fun _ => 0) 0x4000 1024
  refine ⟨enough, fun fuel hfuel => ?_⟩
  obtain ⟨r, hrun, hiff⟩ := h fuel hfuel
  rw [terminal_found, terminal_lookedAt] at hiff
  refine ⟨r, hrun, hiff.mpr ⟨?_, fun _ _ _ => Int.le_refl _⟩⟩
  rintro d hd -
  obtain rfl := List.mem_singleton.mp hd
  decide

end DirentDevname
