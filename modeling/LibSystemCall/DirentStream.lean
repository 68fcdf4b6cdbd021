import LibSystemCall.ByteMemory

/-! # Streams of directory entries

What `z_opendir` makes, and `z_readdir` over what the kernel reads into the buffer. The
kernel writes its status into the last four bytes of the buffer. -/
namespace DirentStream

open ByteMemory

def DTF_HIDEW : BitVec 32 := 0x0001
def DTF_NODUP : BitVec 32 := 0x0002
def DTF_READALL : BitVec 32 := 0x0008
def DTF_SKIPREAD : BitVec 32 := 0x0010
def DTF_ATEND : BitVec 32 := 0x0020
def DT_WHT : UInt8 := 14
def DIRBLKSIZ : ℤ := 1024
def READDIR_INITIAL_SIZE : ℕ := 2048
def READDIR_LARGE_SIZE : ℕ := 8192
def GETDIRENTRIES64_EOF : BitVec 32 := 1
def MNT_UNION : BitVec 32 := 0x20

structure Block where
  addr : ℕ
  aligned : addr % 4096 = 0

/-- `struct z_dir`; `size` is negative after a failed read. -/
structure Dir where
  loc : ℕ
  size : ℤ
  buf : Block
  len : ℕ
  flags : BitVec 32

def Dir.has (dirp : Dir) (flags : BitVec 32) : Prop := dirp.flags &&& flags ≠ 0

instance (dirp : Dir) (flags : BitVec 32) : Decidable (dirp.has flags) :=
  inferInstanceAs (Decidable (_ ≠ _))

/-- `eof` is the flag written into the last bytes. -/
inductive Reply where
  | read (bytes : List UInt8) (eof : Bool)
  | failed

/-- The answers to the reads in turn, and to the `z_malloc` before each, if there is one. -/
structure Env where
  reply : ℕ → Reply
  block : ℕ → Option Block

structure Stream where
  dir : Dir
  mem : Memory
  reads : ℕ

def grow (env : Env) (s : Stream) : Stream :=
  if s.dir.len = READDIR_INITIAL_SIZE then
    match env.block s.reads with
    | some buf => { s with dir := { s.dir with buf := buf, len := READDIR_LARGE_SIZE } }
    | none => s
  else s

def Dir.gdeflags (dirp : Dir) : ℕ := dirp.buf.addr + dirp.len - 4

def zGetdirentries (env : Env) (s : Stream) : Stream × ℤ :=
  match env.reply s.reads with
  | .failed => ({ s with reads := s.reads + 1 }, -1)
  | .read bytes eof =>
    let mem := store s.mem s.dir.buf.addr bytes
    ({ s with
      mem := if eof then storeWord mem s.dir.gdeflags GETDIRENTRIES64_EOF else mem
      reads := s.reads + 1 }, bytes.length)

def readBatch (env : Env) (s : Stream) : Stream :=
  let s := grow env s
  let s := { s with mem := storeWord s.mem s.dir.gdeflags 0#32 }
  let (s, size) := zGetdirentries env s
  let atEnd := 0 ≤ size ∧ size ≤ s.dir.len - 4 ∧
    loadWord 32 s.mem s.dir.gdeflags &&& GETDIRENTRIES64_EOF ≠ 0
  { s with dir := { s.dir with
      size := size
      flags := if atEnd then s.dir.flags ||| DTF_ATEND else s.dir.flags } }

inductive Turn where
  | again (s : Stream)
  | done (s : Stream) (dp : Option ℕ)

/-- From the bogus pointer check on. -/
def takeEntry (s : Stream) : Turn :=
  let dp := s.dir.buf.addr + s.dir.loc
  let reclen := (loadWord 16 s.mem (dp + 16)).toNat
  if dp % 4 ≠ 0 then .done s none
  else if reclen = 0 ∨ (reclen : ℤ) > s.dir.len + 1 - s.dir.loc then .done s none
  else
    let s := { s with dir := { s.dir with loc := s.dir.loc + reclen } }
    if loadWord 64 s.mem dp = 0 then .again s
    else if s.mem (dp + 20) = DT_WHT ∧ s.dir.has DTF_HIDEW then .again s
    else .done s (some dp)

def Dir.skipped (dirp : Dir) : Dir := { dirp with flags := dirp.flags &&& ~~~DTF_SKIPREAD }

def readdirTurn (env : Env) (s : Stream) : Turn :=
  let used := s.dir.loc ≥ s.dir.size
  if used ∧ s.dir.has (DTF_READALL ||| DTF_ATEND) then .done s none
  else
    let s := if used then { s with dir := { s.dir.skipped with loc := 0 } } else s
    if s.dir.loc = 0 ∧ ¬ s.dir.has (DTF_READALL ||| DTF_ATEND ||| DTF_SKIPREAD) then
      let s := readBatch env s
      if s.dir.size ≤ 0 then .done s none else takeEntry { s with dir := s.dir.skipped }
    else takeEntry { s with dir := s.dir.skipped }

/-- Null or a pointer into the buffer; none when the fuel runs out. -/
def zReaddir (env : Env) : ℕ → Stream → Option (Stream × Option ℕ)
  | 0, _ => none
  | fuel + 1, s =>
    match readdirTurn env s with
    | .again s => zReaddir env fuel s
    | .done s dp => some (s, dp)

/-- The answers while the directory is opened; `statfs` is `f_flags`. -/
structure Opening where
  opened : Bool
  malloced : Bool
  secureKernel : ℤ
  statfs : Option (BitVec 32)
  openat : Bool
  buffer : Option Block

def zKernelSupportsUnionfs (o : Opening) : Bool := o.secureKernel = 0

def zFdIsOnUnionMount (o : Opening) : ℤ :=
  match o.statfs with
  | none => -1
  | some flags => if flags &&& MNT_UNION ≠ 0 then 1 else 0

/-- The first turn of the loop that reads; the line that gives `buf` a block is a comment, and
`rest` is what follows. -/
def zFilldir (rest : Option Block → Option Stream) (o : Opening) : Option Stream :=
  let space : ℤ := 0
  let buf : Option Block := none
  if !o.openat then none
  else if space < DIRBLKSIZ ∧ buf.isNone then none
  else rest buf

/-- With `use_current_pos` 0. -/
def zOpendirCommon (rest : Option Block → Option Stream) (o : Opening) (mem : Memory)
    (flags : BitVec 32) : Option Stream :=
  if o.malloced then
    let unionstack :=
      if flags &&& DTF_NODUP ≠ 0 ∧ zKernelSupportsUnionfs o then zFdIsOnUnionMount o else 0
    if unionstack < 0 then none
    else if unionstack ≠ 0 then
      (zFilldir rest o).map fun s =>
        { s with dir := { s.dir with flags := s.dir.flags ||| DTF_READALL } }
    else o.buffer.map fun buf => ⟨⟨0, 0, buf, READDIR_INITIAL_SIZE, flags⟩, mem, 0⟩
  else none

def zOpendir2 (rest : Option Block → Option Stream) (o : Opening) (mem : Memory)
    (flags : BitVec 32) : Option Stream :=
  if flags &&& (DTF_READALL ||| DTF_SKIPREAD) ≠ 0 then none
  else if o.opened then zOpendirCommon rest o mem flags
  else none

def zOpendir (rest : Option Block → Option Stream) (o : Opening) (mem : Memory) : Option Stream :=
  zOpendir2 rest o mem (DTF_HIDEW ||| DTF_NODUP)

/-- The state and the result after the call number `n`, from 0. -/
def call (env : Env) (fuel : ℕ) : ℕ → Stream → Option (Stream × Option ℕ)
  | 0, s => zReaddir env fuel s
  | n + 1, s => (zReaddir env fuel s).bind fun r => call env fuel n r.1

/-- A record; `name` goes on to its end. -/
structure Dirent where
  ino : BitVec 64
  seekoff : BitVec 64
  namlen : BitVec 16
  type : UInt8
  name : List UInt8
  aligned : (21 + name.length) % 4 = 0
  small : 21 + name.length < 2 ^ 16

def Dirent.reclen (d : Dirent) : ℕ := 21 + d.name.length

def Dirent.bytes (d : Dirent) : List UInt8 :=
  leBytes 8 d.ino.toNat ++ leBytes 8 d.seekoff.toNat ++ leBytes 2 d.reclen ++
    leBytes 2 d.namlen.toNat ++ d.type :: d.name

def Dirent.Visible (d : Dirent) : Prop := d.ino ≠ 0 ∧ d.type ≠ DT_WHT

instance (d : Dirent) : Decidable d.Visible := inferInstanceAs (Decidable (_ ∧ _))

def bytesOf (records : List Dirent) : List UInt8 := records.flatMap Dirent.bytes

/-- The length of the buffer before a read, and as offered to it. -/
def lenBefore (env : Env) : ℕ → ℕ
  | 0 => READDIR_INITIAL_SIZE
  | n + 1 =>
    if lenBefore env n = READDIR_INITIAL_SIZE ∧ (env.block n).isSome then READDIR_LARGE_SIZE
    else lenBefore env n

def lenOffered (env : Env) (n : ℕ) : ℕ := lenBefore env (n + 1)

/-- Non-empty batches that fit, only the last of them flagged, and flagged clear of its bytes;
without a flag nothing is read after them. -/
structure Listing (env : Env) (batches : List (List Dirent)) : Prop where
  batch : ∀ i batch, batches[i]? = some batch → batch ≠ [] ∧
    (bytesOf batch).length ≤ lenOffered env i ∧
    ∃ eof, env.reply i = .read (bytesOf batch) eof ∧
      (eof = true → i + 1 = batches.length ∧ (bytesOf batch).length ≤ lenOffered env i - 4)
  ending : (∃ i bytes, i + 1 = batches.length ∧ env.reply i = .read bytes true) ∨
    ∀ i, batches.length ≤ i → ∃ eof, env.reply i = .read [] eof

theorem load_append_inj {m : Memory} {a n : ℕ} {xs ys : List UInt8}
    (h : load m a n = xs ++ ys) :
    load m a xs.length = xs ∧ load m (a + xs.length) ys.length = ys := by
  have hn : n = xs.length + ys.length := by
    have hlen := congrArg List.length h
    rwa [length_load, List.length_append] at hlen
  rw [hn, load_add] at h
  exact List.append_inj h (length_load _ _ _)

theorem loadWord_leBytes {m : Memory} {a w : ℕ} {v : BitVec w} (hw : w % 8 = 0)
    (h : load m a (w / 8) = leBytes (w / 8) v.toNat) : loadWord w m a = v := by
  rw [loadWord, h, leValue_leBytes, pow_256 hw, Nat.mod_eq_of_lt v.isLt]
  simp

theorem length_bytes (d : Dirent) : d.bytes.length = d.reclen := by
  simp only [Dirent.bytes, Dirent.reclen, List.length_append, length_leBytes, List.length_cons]
  omega

structure Stored (m : Memory) (dp : ℕ) (d : Dirent) : Prop where
  ino : loadWord 64 m dp = d.ino
  reclen : (loadWord 16 m (dp + 16)).toNat = d.reclen
  type : m (dp + 20) = d.type

theorem stored_of_load {m : Memory} {dp n : ℕ} {d : Dirent} (h : load m dp n = d.bytes) :
    Stored m dp d := by
  simp only [Dirent.bytes, List.append_assoc] at h
  obtain ⟨hino, h⟩ := load_append_inj h
  obtain ⟨-, h⟩ := load_append_inj h
  obtain ⟨hreclen, h⟩ := load_append_inj h
  obtain ⟨-, h⟩ := load_append_inj h
  have hrest : load m _ _ = [d.type] ++ d.name := h
  obtain ⟨htype, -⟩ := load_append_inj hrest
  simp only [length_leBytes] at hino hreclen htype
  refine ⟨loadWord_leBytes rfl hino, ?_, ?_⟩
  · have hsmall : d.reclen < 2 ^ 16 := d.small
    have hword : loadWord 16 m (dp + 16) = BitVec.ofNat 16 d.reclen := by
      refine loadWord_leBytes rfl ?_
      rw [BitVec.toNat_ofNat, Nat.mod_eq_of_lt hsmall]
      exact hreclen
    rw [hword, BitVec.toNat_ofNat, Nat.mod_eq_of_lt hsmall]
  · simpa [load] using htype

def openFlags : BitVec 32 := DTF_HIDEW ||| DTF_NODUP

def flagsAt (atEnd : Bool) : BitVec 32 := if atEnd then openFlags ||| DTF_ATEND else openFlags

variable {env : Env} {batches : List (List Dirent)}

/-- Between two turns: `rest` is left of the batch in the buffer. -/
structure At (env : Env) (batches : List (List Dirent)) (s : Stream) (rest : List Dirent)
    (atEnd : Bool) : Prop where
  held : load s.mem (s.dir.buf.addr + s.dir.loc) (bytesOf rest).length = bytesOf rest
  size : s.dir.size = s.dir.loc + (bytesOf rest).length
  fits : s.dir.loc + (bytesOf rest).length ≤ s.dir.len
  aligned : s.dir.loc % 4 = 0
  begun : rest ≠ [] → s.dir.loc ≠ 0
  len : s.dir.len = lenBefore env s.reads
  flags : s.dir.flags = flagsAt atEnd
  last : atEnd = true → batches.length ≤ s.reads
  flagged : batches.length ≤ s.reads →
    (∃ i bytes, i + 1 = batches.length ∧ env.reply i = .read bytes true) → atEnd = true

def pending (batches : List (List Dirent)) (s : Stream) (rest : List Dirent) : List Dirent :=
  rest ++ (batches.drop s.reads).flatten

structure Ready (env : Env) (batches : List (List Dirent)) (s : Stream) (d : Dirent)
    (rest : List Dirent) (atEnd : Bool) : Prop where
  held : load s.mem (s.dir.buf.addr + s.dir.loc) (d.reclen + (bytesOf rest).length) =
    d.bytes ++ bytesOf rest
  size : s.dir.size = s.dir.loc + (d.reclen + (bytesOf rest).length)
  fits : s.dir.loc + (d.reclen + (bytesOf rest).length) ≤ s.dir.len
  aligned : s.dir.loc % 4 = 0
  len : s.dir.len = lenBefore env s.reads
  flags : s.dir.flags = flagsAt atEnd
  last : atEnd = true → batches.length ≤ s.reads
  flagged : batches.length ≤ s.reads →
    (∃ i bytes, i + 1 = batches.length ∧ env.reply i = .read bytes true) → atEnd = true

structure Taken (env : Env) (batches : List (List Dirent)) (t : Turn) (d : Dirent)
    (more : List Dirent) : Prop where
  next : ∃ s rest atEnd, At env batches s rest atEnd ∧ pending batches s rest = more ∧
    ∃ dp, t = (if d.Visible then .done s (some dp) else .again s) ∧
      load s.mem dp d.reclen = d.bytes

theorem flagsAt_has (s : Stream) {atEnd : Bool} (h : s.dir.flags = flagsAt atEnd) :
    s.dir.has DTF_HIDEW ∧ (s.dir.has (DTF_READALL ||| DTF_ATEND) ↔ atEnd = true) ∧
      (s.dir.has (DTF_READALL ||| DTF_ATEND ||| DTF_SKIPREAD) ↔ atEnd = true) ∧
      s.dir.flags &&& ~~~DTF_SKIPREAD = s.dir.flags := by
  unfold Dir.has
  rw [h]
  cases atEnd with
  | true => decide
  | false => decide

theorem takeEntry_taken {s : Stream} {d : Dirent} {rest : List Dirent} {atEnd : Bool}
    (h : Ready env batches s d rest atEnd) :
    Taken env batches (takeEntry s) d (pending batches s rest) := by
  obtain ⟨hd, hrest⟩ := load_append_inj h.held
  rw [length_bytes] at hd hrest
  have hstored := stored_of_load hd
  have hreclen : d.reclen = 21 + d.name.length := rfl
  have haligned : ¬ (s.dir.buf.addr + s.dir.loc) % 4 ≠ 0 := by
    have hbuf := s.dir.buf.aligned
    have hloc := h.aligned
    omega
  have hbound : ¬ (d.reclen = 0 ∨ (d.reclen : ℤ) > s.dir.len + 1 - s.dir.loc) := by
    have hfits := h.fits
    omega
  let u : Stream := { s with dir := { s.dir with loc := s.dir.loc + d.reclen } }
  have hat : At env batches u rest atEnd := by
    refine ⟨?_, ?_, ?_, ?_, fun _ => ?_, h.len, h.flags, h.last, h.flagged⟩
    · change load s.mem (s.dir.buf.addr + (s.dir.loc + d.reclen)) _ = _
      rw [← Nat.add_assoc]
      exact hrest
    · change s.dir.size = ((s.dir.loc + d.reclen : ℕ) : ℤ) + _
      rw [h.size]
      omega
    · change s.dir.loc + d.reclen + _ ≤ s.dir.len
      have hfits := h.fits
      omega
    · change (s.dir.loc + d.reclen) % 4 = 0
      have hloc := h.aligned
      have hd4 := d.aligned
      omega
    · change s.dir.loc + d.reclen ≠ 0
      omega
  refine ⟨u, rest, atEnd, hat, rfl, s.dir.buf.addr + s.dir.loc, ?_, hd⟩
  have hhide : s.dir.has DTF_HIDEW := (flagsAt_has s h.flags).1
  unfold takeEntry
  simp only [hstored.reclen, if_neg haligned, if_neg hbound, hstored.ino, hstored.type]
  by_cases hino : d.ino = 0
  · rw [if_pos hino, if_neg fun hv => hv.1 hino]
  · rw [if_neg hino]
    by_cases htype : d.type = DT_WHT
    · rw [if_pos ⟨htype, hhide⟩, if_neg fun hv => hv.2 htype]
    · rw [if_neg fun hw => htype hw.1, if_pos ⟨hino, htype⟩]

theorem lenBefore_cases (env : Env) (n : ℕ) :
    lenBefore env n = READDIR_INITIAL_SIZE ∨ lenBefore env n = READDIR_LARGE_SIZE := by
  induction n with
  | zero => exact .inl rfl
  | succ n ih =>
    simp only [lenBefore]
    split
    · exact .inr rfl
    · exact ih

theorem four_le_lenOffered (env : Env) (n : ℕ) : 4 ≤ lenOffered env n := by
  rcases lenBefore_cases env (n + 1) with h | h
  all_goals
    rw [lenOffered, h]
    decide

theorem grow_len {s : Stream} (h : s.dir.len = lenBefore env s.reads) :
    (grow env s).dir.len = lenOffered env s.reads ∧ (grow env s).reads = s.reads ∧
      (grow env s).dir.loc = s.dir.loc ∧ (grow env s).dir.flags = s.dir.flags := by
  unfold grow lenOffered lenBefore
  rw [← h]
  by_cases hinitial : s.dir.len = READDIR_INITIAL_SIZE
  · cases hblock : env.block s.reads with
    | some buf => simp [hinitial]
    | none => simp [hinitial]
  · simp [hinitial]

structure ReadInto (env : Env) (s u : Stream) (bytes : List UInt8) (eof : Bool) : Prop where
  held : load u.mem u.dir.buf.addr bytes.length = bytes
  size : u.dir.size = bytes.length
  loc : u.dir.loc = s.dir.loc
  len : u.dir.len = lenOffered env s.reads
  reads : u.reads = s.reads + 1
  flags : u.dir.flags = flagsAt eof

theorem readBatch_into {s : Stream} {bytes : List UInt8} {eof : Bool}
    (hlen : s.dir.len = lenBefore env s.reads) (hflags : s.dir.flags = flagsAt false)
    (hreply : env.reply s.reads = .read bytes eof)
    (hfits : bytes.length ≤ lenOffered env s.reads)
    (hclear : eof = true → bytes.length ≤ lenOffered env s.reads - 4) :
    ReadInto env s (readBatch env s) bytes eof := by
  obtain ⟨hgrown, hreads, hloc, hsame⟩ := grow_len hlen
  have hroom := four_le_lenOffered env s.reads
  generalize hg : grow env s = g at hgrown hreads hloc hsame
  have hmem : load (store (storeWord g.mem g.dir.gdeflags 0#32) g.dir.buf.addr bytes)
      g.dir.buf.addr bytes.length = bytes := load_store_same _ _ _
  have hgde : g.dir.gdeflags = g.dir.buf.addr + lenOffered env s.reads - 4 := by
    rw [Dir.gdeflags, hgrown]
  cases eof with
  | true =>
    have hapart := hclear rfl
    have hcond : 0 ≤ (bytes.length : ℤ) ∧ (bytes.length : ℤ) ≤ (g.dir.len : ℤ) - 4 := by
      rw [hgrown]
      omega
    have hword (m : Memory) : loadWord 32 (storeWord m g.dir.gdeflags GETDIRENTRIES64_EOF)
        g.dir.gdeflags &&& GETDIRENTRIES64_EOF ≠ 0 := by
      rw [loadWord_storeWord_same _ _ _ rfl]
      decide
    simp only [readBatch, hg, zGetdirentries, hreads, hreply, if_true]
    refine ⟨?_, rfl, hloc, hgrown, rfl, ?_⟩
    · refine Eq.trans (load_store_disjoint ?_) hmem
      left
      change g.dir.buf.addr + bytes.length ≤ g.dir.gdeflags
      omega
    · change (if _ then g.dir.flags ||| DTF_ATEND else g.dir.flags) = _
      rw [if_pos ⟨hcond.1, hcond.2, hword _⟩, hsame, hflags]
      rfl
  | false =>
    simp only [readBatch, hg, zGetdirentries, hreads, hreply, Bool.false_eq_true, if_false]
    refine ⟨hmem, rfl, hloc, hgrown, rfl, ?_⟩
    change (if _ then g.dir.flags ||| DTF_ATEND else g.dir.flags) = _
    rw [if_neg, hsame, hflags]
    rintro ⟨-, hle, hword⟩
    have hle' : (bytes.length : ℤ) ≤ (g.dir.len : ℤ) - 4 := hle
    rw [hgrown] at hle'
    apply hword
    have hzero : loadWord 32 (store (storeWord g.mem g.dir.gdeflags 0#32) g.dir.buf.addr bytes)
        g.dir.gdeflags = 0#32 := by
      refine Eq.trans (loadWord_congr fun i _ => ?_)
        (loadWord_storeWord_same g.mem g.dir.gdeflags 0#32 rfl)
      exact store_outside (by omega)
    exact (congrArg (· &&& GETDIRENTRIES64_EOF) hzero).trans (by decide)

structure Ended (env : Env) (batches : List (List Dirent)) (t : Turn) : Prop where
  next : ∃ s atEnd, t = .done s none ∧ At env batches s [] atEnd ∧ pending batches s [] = []

theorem drop_flatten_nil {s : Stream} (h : batches.length ≤ s.reads) :
    pending batches s [] = [] := by
  rw [pending, List.drop_eq_nil_of_le h]
  rfl

theorem readdirTurn_begun {s : Stream} {d : Dirent} {rest : List Dirent} {atEnd : Bool}
    (h : At env batches s (d :: rest) atEnd) :
    Taken env batches (readdirTurn env s) d (pending batches s rest) := by
  have hbytes : bytesOf (d :: rest) = d.bytes ++ bytesOf rest := rfl
  have hlength : (bytesOf (d :: rest)).length = d.reclen + (bytesOf rest).length := by
    rw [hbytes, List.length_append, length_bytes]
  have hreclen : d.reclen = 21 + d.name.length := rfl
  have hused : ¬ (s.dir.loc : ℤ) ≥ s.dir.size := by
    rw [h.size, hlength]
    omega
  have hbegun := h.begun (List.cons_ne_nil _ _)
  have hskipped : ({ s with dir := s.dir.skipped } : Stream) = s := by
    rw [Dir.skipped, (flagsAt_has s h.flags).2.2.2]
  have hturn : readdirTurn env s = takeEntry s := by
    simp only [readdirTurn, hused, false_and, if_false, hbegun, hskipped]
  have hheld := h.held
  have hsize := h.size
  have hfits := h.fits
  rw [hlength] at hheld hsize hfits
  rw [hturn]
  exact takeEntry_taken ⟨hheld, hsize, hfits, h.aligned, h.len, h.flags, h.last, h.flagged⟩

def rewound (s : Stream) : Stream := { s with dir := { s.dir.skipped with loc := 0 } }

theorem readdirTurn_used {s : Stream} (h : At env batches s [] false) :
    readdirTurn env s =
      if (readBatch env (rewound s)).dir.size ≤ 0 then .done (readBatch env (rewound s)) none
      else takeEntry { readBatch env (rewound s) with
        dir := (readBatch env (rewound s)).dir.skipped } := by
  have hused : (s.dir.loc : ℤ) ≥ s.dir.size := by
    rw [h.size]
    exact Int.le_of_eq (Int.add_zero _)
  obtain ⟨-, hend, hskip, hsame⟩ := flagsAt_has s h.flags
  have hrewound : (rewound s).dir.flags = s.dir.flags := hsame
  have hskip' : ¬ (rewound s).dir.has (DTF_READALL ||| DTF_ATEND ||| DTF_SKIPREAD) := by
    rw [Dir.has, hrewound]
    intro hf
    exact absurd (hskip.mp hf) (by decide)
  have hnot : ¬ (True ∧ s.dir.has (DTF_READALL ||| DTF_ATEND)) :=
    fun hf => absurd (hend.mp hf.2) (by decide)
  simp only [readdirTurn, hused, if_neg hnot, if_true]
  exact if_pos ⟨trivial, hskip'⟩

theorem rewound_into {s : Stream} {bytes : List UInt8} {eof : Bool} (h : At env batches s [] false)
    (hreply : env.reply s.reads = .read bytes eof)
    (hfits : bytes.length ≤ lenOffered env s.reads)
    (hclear : eof = true → bytes.length ≤ lenOffered env s.reads - 4) :
    ReadInto env (rewound s) (readBatch env (rewound s)) bytes eof := by
  have hflags : (rewound s).dir.flags = flagsAt false :=
    (flagsAt_has s h.flags).2.2.2.trans h.flags
  exact readBatch_into h.len hflags hreply hfits hclear

theorem readdirTurn_next (hl : Listing env batches) {s : Stream} (h : At env batches s [] false)
    {batch : List Dirent} (hbatch : batches[s.reads]? = some batch) :
    ∃ d rest, batch = d :: rest ∧ Taken env batches (readdirTurn env s) d
      (rest ++ (batches.drop (s.reads + 1)).flatten) := by
  obtain ⟨hne, hfits, eof, hreply, hlast⟩ := hl.batch _ _ hbatch
  obtain ⟨d, rest, rfl⟩ := List.exists_cons_of_ne_nil hne
  have hinto := rewound_into h hreply hfits fun he => (hlast he).2
  have hlength : (bytesOf (d :: rest)).length = d.reclen + (bytesOf rest).length := by
    rw [← length_bytes, ← List.length_append]
    rfl
  have hreclen : d.reclen = 21 + d.name.length := rfl
  rw [readdirTurn_used h]
  generalize readBatch env (rewound s) = u at hinto
  have hloc : u.dir.loc = 0 := hinto.loc
  have hsize : ¬ u.dir.size ≤ 0 := by
    rw [hinto.size, hlength]
    omega
  have hskipped : ({ u with dir := u.dir.skipped } : Stream) = u := by
    rw [Dir.skipped, (flagsAt_has u hinto.flags).2.2.2]
  have hreads : u.reads = s.reads + 1 := hinto.reads
  have hlen : u.dir.len = lenOffered env s.reads := hinto.len
  have hready : Ready env batches u d rest eof := by
    refine ⟨?_, ?_, ?_, ?_, ?_, hinto.flags, fun he => ?_, fun hle hflagged => ?_⟩
    · rw [hloc, ← hlength]
      exact hinto.held
    · rw [hinto.size, hloc, hlength]
      omega
    · rw [hloc, ← hlength, hlen]
      omega
    · rw [hloc]
    · rw [hlen, hreads]
      rfl
    · apply Nat.le_of_eq
      rw [hreads, (hlast he).1]
    · obtain ⟨i, bytes, hi, hflag⟩ := hflagged
      have hlt : s.reads < batches.length := (List.getElem?_eq_some_iff.mp hbatch).1
      obtain rfl : i = s.reads := by omega
      rw [hreply] at hflag
      exact (Reply.read.inj hflag).2
  refine ⟨d, rest, rfl, ?_⟩
  rw [if_neg hsize, hskipped, ← hreads]
  exact takeEntry_taken hready

theorem readdirTurn_empty (hl : Listing env batches) {s : Stream} {atEnd : Bool}
    (h : At env batches s [] atEnd) (hend : batches.length ≤ s.reads) :
    Ended env batches (readdirTurn env s) := by
  cases atEnd with
  | true =>
    have hused : (s.dir.loc : ℤ) ≥ s.dir.size := by
      rw [h.size]
      exact Int.le_of_eq (Int.add_zero _)
    have hhas := (flagsAt_has s h.flags).2.1.mpr rfl
    refine ⟨s, true, ?_, h, drop_flatten_nil hend⟩
    exact if_pos ⟨hused, hhas⟩
  | false =>
    have hempty : ∀ i, batches.length ≤ i → ∃ eof, env.reply i = .read [] eof := by
      refine hl.ending.resolve_left fun hflag => ?_
      exact absurd (h.flagged hend hflag) (by decide)
    obtain ⟨eof, hreply⟩ := hempty s.reads hend
    have hinto := rewound_into h hreply (Nat.zero_le _) fun _ => Nat.zero_le _
    rw [readdirTurn_used h]
    generalize readBatch env (rewound s) = u at hinto
    have hsize : u.dir.size = 0 := hinto.size
    have hloc : u.dir.loc = 0 := hinto.loc
    have hreads : u.reads = s.reads + 1 := hinto.reads
    have hlen : u.dir.len = lenOffered env s.reads := hinto.len
    refine ⟨u, eof, if_pos (Int.le_of_eq hsize), ?_, drop_flatten_nil (by omega)⟩
    refine ⟨rfl, ?_, ?_, ?_, fun hne => absurd rfl hne, ?_, hinto.flags, fun _ => ?_,
      fun _ hflag => ?_⟩
    · rw [hsize, hloc]
      rfl
    · rw [hloc]
      exact Nat.zero_le _
    · rw [hloc]
    · rw [hlen, hreads]
      rfl
    · omega
    · exact absurd (h.flagged hend hflag) (by decide)

theorem readdirTurn_pending (hl : Listing env batches) {s : Stream} {rest : List Dirent}
    {atEnd : Bool} (h : At env batches s rest atEnd) {d : Dirent} {more : List Dirent}
    (hpending : pending batches s rest = d :: more) :
    Taken env batches (readdirTurn env s) d more := by
  cases rest with
  | cons e rest =>
    obtain ⟨rfl, rfl⟩ := List.cons.inj hpending
    exact readdirTurn_begun h
  | nil =>
    have hlt : s.reads < batches.length := by
      by_contra hge
      rw [drop_flatten_nil (Nat.le_of_not_lt hge)] at hpending
      cases hpending
    obtain rfl : atEnd = false := by
      cases atEnd with
      | false => rfl
      | true => exact absurd (h.last rfl) (Nat.not_le.mpr hlt)
    obtain ⟨e, rest, hbatch, htaken⟩ := readdirTurn_next hl h (List.getElem?_eq_getElem hlt)
    have hdrop : pending batches s [] =
        e :: (rest ++ (batches.drop (s.reads + 1)).flatten) := by
      rw [pending, List.nil_append, List.drop_eq_getElem_cons hlt, List.flatten_cons, hbatch]
      rfl
    obtain ⟨rfl, rfl⟩ := List.cons.inj (hdrop.symm.trans hpending)
    exact htaken

theorem readdirTurn_nothing (hl : Listing env batches) {s : Stream} {rest : List Dirent}
    {atEnd : Bool} (h : At env batches s rest atEnd) (hpending : pending batches s rest = []) :
    Ended env batches (readdirTurn env s) := by
  obtain ⟨rfl, hflat⟩ := List.append_eq_nil_iff.mp hpending
  refine readdirTurn_empty hl h ?_
  by_contra hge
  have hlt : s.reads < batches.length := Nat.lt_of_not_le hge
  have hne := (hl.batch _ _ (List.getElem?_eq_getElem hlt)).1
  rw [List.drop_eq_getElem_cons hlt, List.flatten_cons, List.append_eq_nil_iff] at hflat
  exact hne hflat.1

def visible (records : List Dirent) : List Dirent := records.filter Dirent.Visible

def Returned (s : Stream) (r : Option ℕ) : Option Dirent → Prop
  | some d => ∃ dp, r = some dp ∧ load s.mem dp d.reclen = d.bytes
  | none => r = none

theorem zReaddir_returns (hl : Listing env batches) {s : Stream} {rest : List Dirent}
    {atEnd : Bool} (h : At env batches s rest atEnd) {fuel : ℕ}
    (hfuel : (pending batches s rest).length < fuel) :
    ∃ u r rest' atEnd', zReaddir env fuel s = some (u, r) ∧ At env batches u rest' atEnd' ∧
      (pending batches u rest').length ≤ (pending batches s rest).length ∧
      visible (pending batches u rest') = (visible (pending batches s rest)).tail ∧
      Returned u r (visible (pending batches s rest)).head? := by
  induction hp : pending batches s rest generalizing s rest atEnd fuel with
  | nil =>
    rw [hp] at hfuel
    obtain ⟨fuel, rfl⟩ := Nat.exists_eq_add_of_lt hfuel
    obtain ⟨u, atEnd', hturn, hat, hnone⟩ := readdirTurn_nothing hl h hp
    refine ⟨u, none, [], atEnd', ?_, hat, ?_, ?_, rfl⟩
    · simp only [zReaddir, hturn]
    · exact Nat.le_of_eq (congrArg List.length hnone)
    · rw [hnone]
      rfl
  | cons d more ih =>
    obtain ⟨u, rest', atEnd', hat, hmore, dp, hturn, hload⟩ := readdirTurn_pending hl h hp
    rw [hp] at hfuel
    obtain ⟨fuel, rfl⟩ : ∃ k, fuel = k + 1 := ⟨fuel - 1, by omega⟩
    by_cases hv : d.Visible
    · have hvisible : visible (d :: more) = d :: visible more :=
        List.filter_cons_of_pos (by simpa using hv)
      rw [if_pos hv] at hturn
      refine ⟨u, some dp, rest', atEnd', ?_, hat, ?_, ?_, ?_⟩
      · simp only [zReaddir, hturn]
      · rw [hmore]
        exact Nat.le_succ _
      · rw [hvisible, hmore]
        rfl
      · rw [hvisible]
        exact ⟨dp, rfl, hload⟩
    · have hvisible : visible (d :: more) = visible more :=
        List.filter_cons_of_neg (by simpa using hv)
      rw [if_neg hv] at hturn
      have hless : (pending batches u rest').length < fuel := by
        rw [hmore]
        rw [List.length_cons] at hfuel
        omega
      obtain ⟨w, r, rest'', atEnd'', hrun, hat', hle, hvis, hret⟩ := ih hat hless hmore
      refine ⟨w, r, rest'', atEnd'', ?_, hat', ?_, ?_, ?_⟩
      · simp only [zReaddir, hturn]
        exact hrun
      · exact Nat.le_succ_of_le hle
      · rw [hvisible]
        exact hvis
      · rw [hvisible]
        exact hret

theorem call_returns (hl : Listing env batches) {s : Stream} {rest : List Dirent} {atEnd : Bool}
    (h : At env batches s rest atEnd) {fuel : ℕ}
    (hfuel : (pending batches s rest).length < fuel) (n : ℕ) :
    ∃ u r, call env fuel n s = some (u, r) ∧
      Returned u r ((visible (pending batches s rest))[n]?) := by
  induction n generalizing s rest atEnd with
  | zero =>
    obtain ⟨u, r, -, -, hrun, -, -, -, hret⟩ := zReaddir_returns hl h hfuel
    refine ⟨u, r, hrun, ?_⟩
    rw [← List.head?_eq_getElem?]
    exact hret
  | succ n ih =>
    obtain ⟨u, r, rest', atEnd', hrun, hat, hle, hvis, -⟩ := zReaddir_returns hl h hfuel
    obtain ⟨w, r', hcall, hret⟩ := ih hat (Nat.lt_of_le_of_lt hle hfuel)
    refine ⟨w, r', ?_, ?_⟩
    · simp only [call, hrun, Option.bind_some]
      exact hcall
    · rw [hvis, List.getElem?_tail] at hret
      exact hret

def unionstack (o : Opening) : ℤ := if zKernelSupportsUnionfs o then zFdIsOnUnionMount o else 0

theorem zOpendir_eq (rest : Option Block → Option Stream) (o : Opening) (mem : Memory) :
    zOpendir rest o mem =
      if o.opened = true ∧ o.malloced = true then
        if unionstack o < 0 then none
        else if unionstack o ≠ 0 then
          (zFilldir rest o).map fun s =>
            { s with dir := { s.dir with flags := s.dir.flags ||| DTF_READALL } }
        else o.buffer.map fun buf => ⟨⟨0, 0, buf, READDIR_INITIAL_SIZE, openFlags⟩, mem, 0⟩
      else none := by
  have hflags : ¬ (DTF_HIDEW ||| DTF_NODUP) &&& (DTF_READALL ||| DTF_SKIPREAD) ≠ 0 := by decide
  have hnodup : (DTF_HIDEW ||| DTF_NODUP) &&& DTF_NODUP ≠ 0 := by decide
  simp only [zOpendir, zOpendir2, zOpendirCommon, if_neg hflags, hnodup, ne_eq, not_false_eq_true,
    true_and, unionstack, openFlags]
  cases o.opened with
  | false => rfl
  | true =>
    cases o.malloced with
    | false => rfl
    | true => rfl

theorem zOpendir_plain {rest : Option Block → Option Stream} {o : Opening} {mem : Memory}
    {s : Stream} (hopen : zOpendir rest o mem = some s)
    (hplain : ∀ flags, o.statfs = some flags → flags &&& MNT_UNION = 0) :
    ∃ buf, s = ⟨⟨0, 0, buf, READDIR_INITIAL_SIZE, openFlags⟩, mem, 0⟩ := by
  have hunion : unionstack o ≤ 0 := by
    unfold unionstack zFdIsOnUnionMount
    split
    · cases hstat : o.statfs with
      | none => decide
      | some flags => simp [hplain flags hstat]
    · exact Int.le_refl 0
  rw [zOpendir_eq] at hopen
  split at hopen
  · split at hopen
    · cases hopen
    · next hneg =>
      rw [if_neg (by omega)] at hopen
      obtain ⟨buf, -, rfl⟩ := Option.map_eq_some_iff.mp hopen
      exact ⟨buf, rfl⟩
  · cases hopen

theorem new_at (env : Env) (batches : List (List Dirent)) (buf : Block) (mem : Memory) :
    At env batches ⟨⟨0, 0, buf, READDIR_INITIAL_SIZE, openFlags⟩, mem, 0⟩ [] false := by
  refine ⟨rfl, rfl, Nat.zero_le _, rfl, fun hne => absurd rfl hne, rfl, rfl, nofun, ?_⟩
  rintro hle ⟨i, bytes, hi, -⟩
  have hzero : batches.length = 0 := Nat.le_zero.mp hle
  exact absurd hi (by omega)

theorem new_lists (hl : Listing env batches) (buf : Block) (mem : Memory) :
    ∃ enough, ∀ fuel ≥ enough, ∀ n, ∃ u r,
      call env fuel n ⟨⟨0, 0, buf, READDIR_INITIAL_SIZE, openFlags⟩, mem, 0⟩ = some (u, r) ∧
        Returned u r ((visible batches.flatten)[n]?) := by
  have hat := new_at env batches buf mem
  have hpending : pending batches ⟨⟨0, 0, buf, READDIR_INITIAL_SIZE, openFlags⟩, mem, 0⟩ [] =
      batches.flatten := rfl
  refine ⟨batches.flatten.length + 1, fun fuel hfuel n => ?_⟩
  have henough : (pending batches ⟨⟨0, 0, buf, READDIR_INITIAL_SIZE, openFlags⟩, mem, 0⟩
      []).length < fuel := by
    rw [hpending]
    exact hfuel
  have hcall := call_returns hl hat henough n
  rwa [hpending] at hcall

/-- The calls on a new stream return the visible records of the batches in their order, and
then nothing. -/
theorem readdir_lists {rest : Option Block → Option Stream} {o : Opening} {mem : Memory}
    {s : Stream} (hopen : zOpendir rest o mem = some s)
    (hplain : ∀ flags, o.statfs = some flags → flags &&& MNT_UNION = 0)
    (hl : Listing env batches) :
    ∃ enough, ∀ fuel ≥ enough, ∀ n, ∃ u r, call env fuel n s = some (u, r) ∧
      Returned u r ((visible batches.flatten)[n]?) := by
  obtain ⟨buf, rfl⟩ := zOpendir_plain hopen hplain
  exact new_lists hl buf mem

def entry (ino : BitVec 64) (type letter : UInt8) : Dirent :=
  ⟨ino, 0, 1, type, [letter, 0, 0], show 24 % 4 = 0 from rfl, show 24 < 2 ^ 16 by decide⟩

def twoBatches : List (List Dirent) := [[entry 0 8 97, entry 5 8 98], [entry 6 DT_WHT 99]]

def twoReads : Env where
  reply
    | 0 => .read (bytesOf [entry 0 8 97, entry 5 8 98]) false
    | _ => .read (bytesOf [entry 6 DT_WHT 99]) true
  block _ := none

theorem twoReads_listing : Listing twoReads twoBatches where
  batch i batch hb := by
    match i with
    | 0 =>
      obtain rfl := Option.some.inj hb
      exact ⟨List.cons_ne_nil _ _, by decide, false, rfl, nofun⟩
    | 1 =>
      obtain rfl := Option.some.inj hb
      exact ⟨List.cons_ne_nil _ _, by decide, true, rfl, fun _ => ⟨rfl, by decide⟩⟩
    | i + 2 => cases hb
  ending := .inl ⟨1, _, rfl, rfl⟩

def plainDirectory : Opening := ⟨true, true, 0, some 0, true, some ⟨0x10000, rfl⟩⟩

theorem readdir_lists_two :
    ∃ enough, ∀ fuel ≥ enough, ∀ n, ∃ u r,
      call twoReads fuel n ⟨⟨0, 0, ⟨0x10000, rfl⟩, 2048, openFlags⟩, fun _ => 0, 0⟩ = some (u, r) ∧
        Returned u r ([entry 5 8 98][n]?) := by
  have hopen : zOpendir (fun _ => none) plainDirectory (fun _ => 0) =
      some ⟨⟨0, 0, ⟨0x10000, rfl⟩, 2048, openFlags⟩, fun _ => 0, 0⟩ := rfl
  have hplain : ∀ flags, plainDirectory.statfs = some flags → flags &&& MNT_UNION = 0 := by
    intro flags hflags
    obtain rfl := Option.some.inj hflags
    decide
  have hvisible : visible twoBatches.flatten = [entry 5 8 98] := rfl
  rw [← hvisible]
  exact readdir_lists hopen hplain twoReads_listing

theorem leBytes_inj {k w : ℕ} {v v' : BitVec w} (hw : 256 ^ k = 2 ^ w)
    (h : leBytes k v.toNat = leBytes k v'.toNat) : v = v' := by
  have hvalue := congrArg leValue h
  rw [leValue_leBytes, leValue_leBytes, hw, Nat.mod_eq_of_lt v.isLt,
    Nat.mod_eq_of_lt v'.isLt] at hvalue
  exact BitVec.eq_of_toNat_eq hvalue

theorem bytes_inj {d e : Dirent} (h : d.bytes = e.bytes) : d = e := by
  simp only [Dirent.bytes, List.append_assoc] at h
  have hlen : ∀ k v v', (leBytes k v).length = (leBytes k v').length := by
    intro k v v'
    rw [length_leBytes, length_leBytes]
  obtain ⟨hino, h⟩ := List.append_inj h (hlen 8 _ _)
  obtain ⟨hseekoff, h⟩ := List.append_inj h (hlen 8 _ _)
  obtain ⟨-, h⟩ := List.append_inj h (hlen 2 _ _)
  obtain ⟨hnamlen, h⟩ := List.append_inj h (hlen 2 _ _)
  obtain ⟨htype, hname⟩ := List.cons.inj h
  cases d
  cases e
  cases leBytes_inj rfl hino
  cases leBytes_inj rfl hseekoff
  cases leBytes_inj rfl hnamlen
  cases htype
  cases hname
  rfl

theorem Returned.unique {s : Stream} {r : Option ℕ} {x y : Option Dirent} (hx : Returned s r x)
    (hy : Returned s r y) : x = y := by
  cases x with
  | none =>
    cases y with
    | none => rfl
    | some e =>
      obtain ⟨dp, hr, -⟩ := hy
      exact absurd (hr.symm.trans hx) (Option.some_ne_none dp)
  | some d =>
    obtain ⟨dp, hr, hd⟩ := hx
    cases y with
    | none => exact absurd (hr.symm.trans hy) (Option.some_ne_none dp)
    | some e =>
      obtain ⟨dp', hr', he⟩ := hy
      obtain rfl : dp = dp' := Option.some.inj (hr.symm.trans hr')
      have hreclen : d.reclen = e.reclen :=
        (stored_of_load hd).reclen.symm.trans (stored_of_load he).reclen
      rw [← hreclen, hd] at he
      rw [bytes_inj he]

def Dirent.dName (d : Dirent) : List UInt8 := d.name.takeWhile (· ≠ 0)

/-- `z_opendir` gives a stream, and the calls on it return these records in some order. -/
def Lists (rest : Option Block → Option Stream) (o : Opening) (mem : Memory) (env : Env)
    (records : List Dirent) : Prop :=
  ∃ s, zOpendir rest o mem = some s ∧ ∃ results : List Dirent, results.Perm records ∧
    ∃ enough, ∀ fuel ≥ enough, ∀ n, ∃ u r, call env fuel n s = some (u, r) ∧
      Returned u r results[n]?

theorem zFilldir_none (rest : Option Block → Option Stream) (o : Opening) :
    zFilldir rest o = none := by
  unfold zFilldir
  cases o.openat with
  | false => rfl
  | true => rfl

end DirentStream
