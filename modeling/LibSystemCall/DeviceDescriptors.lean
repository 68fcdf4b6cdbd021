import LibSystemCall.RandSeeding
import LibSystemCall.DirentDevname

/-! # Descriptors of the device functions

`z_ptsname_r`, `z_ptsname`, `z_sranddev` and `z_devname_r` as system calls that can each fail:
which descriptors are open afterwards. -/
namespace DeviceDescriptors

open ByteMemory DirentDescriptors DirentDevname RandSeeding
open DirentStream (DTF_HIDEW DTF_NODUP DTF_READALL DTF_SKIPREAD DTF_ATEND DT_WHT)

def PTSNAME_MAX_SIZE : ℤ := 128
def ERANGE : BitVec 32 := 34
def READDIR_LARGE_SIZE : ℤ := 8192

/-- The name that a successful `TIOCPTYGNAME` leaves in the array of 128 bytes. -/
structure PtyName where
  bytes : Memory
  text : List UInt8
  held : CStringAt bytes 0 text
  fits : (text.length + 1 : ℤ) ≤ PTSNAME_MAX_SIZE

structure Record where
  reclen : BitVec 16
  ino : BitVec 64
  type : UInt8
  found : Found

/-- The answers of the kernel that are not in `Env`, to the calls on records and paths in turn. -/
structure Answers where
  device : Device
  ioctl : Answer
  fstat : Answer
  ptsname : PtyName
  record : ℕ → Record
  lstat : ℕ → Answer × Stat

/-- `z_memcpy` between objects that do not overlap. -/
def zMemcpy (src : Memory) (n : ℕ) (dest : Object) (d s : ℕ) : Object :=
  copyLoop (fun _ s => s + 1) src n dest d s

/-- The open descriptors with the rest of the world, the caller's buffer, and the result. -/
structure Returned where
  world : World
  buf : Object
  ret : ℤ

/-- `buffer` is 0 for the null pointer. -/
def zPtsnameR (E : Env) (A : Answers) (w : World) (out : Object) (buffer buflen : ℤ) :
    Returned :=
  if buffer = 0 then ⟨w.setErrno EINVAL, out, -1⟩
  else
    let (w, error) := answered w A.ioctl
    if error ≠ 0 then ⟨w, out, -1⟩
    else
      let (w, _) := zOpen E w
      let (w, error) := answered w A.fstat
      if error ≠ 0 then ⟨w, out, -1⟩
      else
        let len := A.ptsname.text.length + 1
        if buflen < (len : ℤ) then ⟨w.setErrno ERANGE, out, -1⟩
        else ⟨w, zMemcpy A.ptsname.bytes len out buffer.toNat 0, 0⟩

/-- The buffer is a new one; the result is its address, or 0. -/
def zPtsname (E : Env) (A : Answers) (w : World) (out : Object) : Returned :=
  let (w, ptsnamebuf) := zMalloc E w
  let r := zPtsnameR E A w out ptsnamebuf PTSNAME_MAX_SIZE
  { r with ret := if r.ret ≠ 0 then 0 else ptsnamebuf }

/-- The world, and how many records and paths were looked at. -/
structure Machine where
  world : World
  records : ℕ
  paths : ℕ

inductive ReaddirTurn where
  | again (s : Machine) (dirp : Dir)
  | done (s : Machine) (dirp : Dir) (dp : Option Found)

def hasFlags (dirp : Dir) (flags : BitVec 32) : Bool := dirp.flags &&& flags ≠ 0

def skipped (dirp : Dir) : Dir := { dirp with flags := dirp.flags &&& ~~~DTF_SKIPREAD }

def growBuffer (E : Env) (w : World) (dirp : Dir) : World × Dir :=
  if dirp.len = READDIR_INITIAL_SIZE then
    let (w, buf) := zMalloc E w
    if buf ≠ 0 then (zFree E w dirp.buf, { dirp with buf := buf, len := READDIR_LARGE_SIZE })
    else (w, dirp)
  else (w, dirp)

def readBatch (E : Env) (w : World) (dirp : Dir) : World × Dir :=
  let (w, dirp) := growBuffer E w dirp
  let (w, size, eof) := zGetdirentries E w
  let atEnd := 0 ≤ size ∧ size ≤ dirp.len - 4 ∧ eof
  (w, { dirp with
    size := size
    flags := if atEnd then dirp.flags ||| DTF_ATEND else dirp.flags })

/-- From the bogus pointer check on. -/
def takeRecord (A : Answers) (s : Machine) (dirp : Dir) : ReaddirTurn :=
  let dp := A.record s.records
  let s := { s with records := s.records + 1 }
  let dirp := skipped dirp
  if (dirp.buf + dirp.loc) % 4 ≠ 0 then .done s dirp none
  else if dp.reclen = 0 ∨ (dp.reclen.toNat : ℤ) > dirp.len + 1 - dirp.loc then .done s dirp none
  else
    let dirp := { dirp with loc := dirp.loc + dp.reclen.toNat }
    if dp.ino = 0 then .again s dirp
    else if dp.type = DT_WHT ∧ hasFlags dirp DTF_HIDEW then .again s dirp
    else .done s dirp (some dp.found)

def readdirTurn (E : Env) (A : Answers) (s : Machine) (dirp : Dir) : ReaddirTurn :=
  let used := dirp.loc ≥ dirp.size
  if used ∧ hasFlags dirp (DTF_READALL ||| DTF_ATEND) then .done s dirp none
  else
    let dirp := if used then { skipped dirp with loc := 0 } else dirp
    if dirp.loc = 0 ∧ !hasFlags dirp (DTF_READALL ||| DTF_ATEND ||| DTF_SKIPREAD) then
      let (w, dirp) := readBatch E s.world dirp
      let s := { s with world := w }
      if dirp.size ≤ 0 then .done s dirp none else takeRecord A s dirp
    else takeRecord A s dirp

def zReaddir (E : Env) (A : Answers) : ℕ → Machine → Dir → Option (Machine × Dir × Option Found)
  | 0, _, _ => none
  | fuel + 1, s, dirp =>
    match readdirTurn E A s dirp with
    | .again s dirp => zReaddir E A fuel s dirp
    | .done s dirp dp => some (s, dirp, dp)

def zLstat (A : Answers) (s : Machine) : Machine × Option Stat :=
  let (a, sb) := A.lstat s.paths
  let (w, r) := answered s.world a
  ({ s with world := w, paths := s.paths + 1 }, if r ≠ 0 then none else some sb)

def deviceCalls (E : Env) (A : Answers) (fuel : ℕ) : DirCalls Machine Dir where
  opendir s := (zOpendir2 E (fuel + 1) s.world (DTF_HIDEW ||| DTF_NODUP)).map fun (w, dirp) =>
    ({ s with world := w }, dirp)
  readdir := zReaddir E A fuel
  lstat s _ := zLstat A s
  closedir s dirp := { s with world := (zClosedir E s.world dirp).1 }

section

variable {E : Env} {A : Answers}

/-- Calls on a stream: nothing is opened or closed, and the stream keeps its descriptor. -/
structure SameFds (s s' : Machine) (dirp dirp' : Dir) : Prop where
  fds : s'.world.fds = s.world.fds
  fd : dirp'.fd = dirp.fd

theorem SameFds.refl (s : Machine) (dirp : Dir) : SameFds s s dirp dirp := ⟨rfl, rfl⟩

theorem SameFds.trans {s s' s'' : Machine} {dirp dirp' dirp'' : Dir}
    (h : SameFds s s' dirp dirp') (h' : SameFds s' s'' dirp' dirp'') :
    SameFds s s'' dirp dirp'' := ⟨h'.fds.trans h.fds, h'.fd.trans h.fd⟩

theorem growBuffer_fds (E : Env) (w : World) (dirp : Dir) :
    (growBuffer E w dirp).1.fds = w.fds ∧ (growBuffer E w dirp).2.fd = dirp.fd := by
  have hmalloc := (zMalloc_quiet E w).fds
  unfold growBuffer
  split
  · dsimp only
    split
    · exact ⟨(zFree_freed E _ _).fds.trans hmalloc, rfl⟩
    · exact ⟨hmalloc, rfl⟩
  · exact ⟨rfl, rfl⟩

theorem readBatch_fds (E : Env) (w : World) (dirp : Dir) :
    (readBatch E w dirp).1.fds = w.fds ∧ (readBatch E w dirp).2.fd = dirp.fd := by
  obtain ⟨hfds, hfd⟩ := growBuffer_fds E w dirp
  exact ⟨(zGetdirentries_quiet E _).fds.trans hfds, hfd⟩

def ReaddirTurn.Leaves (P : Machine → Dir → Prop) : ReaddirTurn → Prop
  | .again s dirp | .done s dirp _ => P s dirp

theorem takeRecord_fds (A : Answers) (s : Machine) (dirp : Dir) :
    (takeRecord A s dirp).Leaves fun s' dirp' => SameFds s s' dirp dirp' := by
  unfold takeRecord
  dsimp only
  split_ifs <;> exact ⟨rfl, rfl⟩

theorem readdirTurn_fds (E : Env) (A : Answers) (s : Machine) (dirp : Dir) :
    (readdirTurn E A s dirp).Leaves fun s' dirp' => SameFds s s' dirp dirp' := by
  have hrewind : ∀ c : Prop, [Decidable c] →
      (if c then { skipped dirp with loc := 0 } else dirp : Dir).fd = dirp.fd := by
    intro c _
    split <;> rfl
  unfold readdirTurn
  dsimp only
  split
  · exact .refl s dirp
  · have hfd := hrewind (dirp.loc ≥ dirp.size)
    generalize (if dirp.loc ≥ dirp.size then { skipped dirp with loc := 0 } else dirp : Dir) = d at *
    obtain ⟨hbatch, hbatchFd⟩ := readBatch_fds E s.world d
    split
    · split
      · exact ⟨hbatch, hbatchFd.trans hfd⟩
      · have hread : SameFds s { s with world := (readBatch E s.world d).1 } dirp
            (readBatch E s.world d).2 := ⟨hbatch, hbatchFd.trans hfd⟩
        have htake := takeRecord_fds A { s with world := (readBatch E s.world d).1 }
          (readBatch E s.world d).2
        revert htake
        cases takeRecord A _ _ <;> exact hread.trans
    · have hsame : SameFds s s dirp d := ⟨rfl, hfd⟩
      have htake := takeRecord_fds A s d
      revert htake
      cases takeRecord A s d <;> exact hsame.trans

theorem zReaddir_fds {fuel : ℕ} {s s' : Machine} {dirp dirp' : Dir} {dp : Option Found}
    (h : zReaddir E A fuel s dirp = some (s', dirp', dp)) : SameFds s s' dirp dirp' := by
  induction fuel generalizing s dirp with
  | zero => cases h
  | succ fuel ih =>
    have hturn := readdirTurn_fds E A s dirp
    rw [zReaddir] at h
    cases ht : readdirTurn E A s dirp with
    | again u d =>
      rw [ht] at h hturn
      exact hturn.trans (ih h)
    | done u d r =>
      rw [ht] at h hturn
      simp only [Option.some.injEq, Prod.mk.injEq] at h
      obtain ⟨rfl, rfl, -⟩ := h
      exact hturn

theorem zLstat_fds (A : Answers) (s : Machine) : (zLstat A s).1.world.fds = s.world.fds :=
  answered_fds _ _

theorem devnameLoop_fds {k fuel frame : ℕ} {dev : BitVec 32} {type : BitVec 16} {buf : ℕ} {len : ℤ}
    {s : Machine} {dp : Dir} {path out : Object} {r : Result Machine}
    (h : devnameLoop (deviceCalls E A k) frame dev type buf len fuel s dp path out = some r) :
    r.state.world.fds = s.world.fds.erase dp.fd := by
  induction fuel generalizing s dp path with
  | zero => cases h
  | succ fuel ih =>
    rw [devnameLoop] at h
    obtain ⟨⟨s', dp', dirp⟩, hread, h⟩ := Option.bind_eq_some_iff.mp h
    obtain ⟨hfds, hfd⟩ := zReaddir_fds hread
    have hclose : ∀ u : Machine, u.world.fds = s'.world.fds →
        (zClosedir E u.world dp').1.fds = s.world.fds.erase dp.fd := by
      intro u hu
      rw [zClosedir_fds, hu, hfds, hfd]
    cases dirp with
    | none =>
      obtain rfl := Option.some.inj h
      exact hclose s' rfl
    | some dirp =>
      have hstat := zLstat_fds A s'
      have hnext : ∀ {u : Machine} {p : Object}, u.world.fds = s'.world.fds →
          devnameLoop (deviceCalls E A k) frame dev type buf len fuel u dp' p out = some r →
          r.state.world.fds = s.world.fds.erase dp.fd := by
        intro u p hu hloop
        rw [ih hloop, hu, hfds, hfd]
      have hcall : ∀ p, (deviceCalls E A k).lstat s' p = zLstat A s' := fun _ => rfl
      dsimp only at h
      rw [hcall] at h
      generalize zLstat A s' = t at h hstat
      obtain ⟨u, sb⟩ := t
      cases sb with
      | none => exact hnext hstat h
      | some sb =>
        dsimp only at h
        split at h
        · exact hnext hstat h
        · split at h
          · exact hnext hstat h
          · split at h
            · obtain rfl := Option.some.inj h
              exact hclose u hstat
            · obtain rfl := Option.some.inj h
              exact hclose u hstat

theorem zDevnameR_fds {k fuel frame : ℕ} {s : Machine} {stack : Memory} {dev : BitVec 32}
    {type : BitVec 16} {out : Memory} {buf : ℕ} {len : ℤ} {r : Result Machine}
    (h : zDevnameR (deviceCalls E A k) fuel s stack frame dev type out buf len = some r) :
    r.state.world.fds = s.world.fds := by
  obtain ⟨⟨w, d⟩, hopen, hacc⟩ := opendir2_accounted E k s.world (DTF_HIDEW ||| DTF_NODUP)
  have hcall : (deviceCalls E A k).opendir s = some ({ s with world := w }, d) := by
    simp only [deviceCalls, hopen, Option.map_some]
  rw [zDevnameR, hcall] at h
  cases d with
  | none =>
    obtain rfl := Option.some.inj h
    exact (hacc.null rfl).1
  | some d =>
    obtain ⟨hnew, hfds⟩ := hacc.stream d rfl
    have hrest := devnameLoop_fds h
    rw [hrest]
    exact hfds ▸ Finset.erase_insert hnew

theorem openFd_result (E : Env) (w : World) (c : Call) :
    (openFd E w c).2 = -1 ∨ 0 ≤ (openFd E w c).2 := by
  unfold openFd
  rcases issue E w c with ⟨w', _ | v⟩
  · exact .inl rfl
  · exact .inr (E.nonneg _)

theorem zSranddev_fds (E : Env) (D : Device) (w : World) (next : BitVec 64) :
    (zSranddev E D w next).1.fds = w.fds := by
  have hopen := openFd_opens E w (c := .sysOpen) rfl
  have hread : (readNext E D w next).1.fds = w.fds := by
    unfold readNext zOpen
    dsimp only
    split
    · next hfd =>
      obtain ⟨hnew, hfds⟩ := hopen.one (by omega)
      rw [zClose_fds, answered_fds, hfds, Finset.erase_insert hnew]
    · next hfd => exact hopen.none ((openFd_result E w .sysOpen).resolve_right hfd)
  unfold zSranddev
  dsimp only
  split
  · exact hread
  · rw [answered_fds]
    exact hread

end

inductive DeviceCall where
  | ptsnameR (buffer buflen : ℤ)
  | ptsname
  | sranddev (next : BitVec 64)
  | devnameR (frame : ℕ) (dev : BitVec 32) (type : BitVec 16) (buf : ℕ) (len : ℤ)

/-- `out` is what the caller's buffer holds, `frame` the address of `_buf`; none when the fuel runs
out. -/
def DeviceCall.run (E : Env) (A : Answers) (fuel : ℕ) (w : World) (out : Memory) :
    DeviceCall → Option Returned
  | .ptsnameR buffer buflen => some (zPtsnameR E A w ⟨out, []⟩ buffer buflen)
  | .ptsname => some (zPtsname E A w ⟨out, []⟩)
  | .sranddev next => some ⟨(zSranddev E A.device w next).1, ⟨out, []⟩, 0⟩
  | .devnameR frame dev type buf len =>
    (zDevnameR (deviceCalls E A fuel) fuel ⟨w, 0, 0⟩ out frame dev type out buf len).map fun r =>
      ⟨r.state.world, r.buf, r.ret.elim 0 fun buf => buf⟩

/-- The descriptors are the same afterwards, and a `z_ptsname_r` that fails leaves the buffer. -/
structure Balanced (E : Env) (A : Answers) (fuel : ℕ) (w : World) (out : Memory)
    (c : DeviceCall) : Prop where
  fds : ∀ r, c.run E A fuel w out = some r → r.world.fds = w.fds
  buffer : ∀ buffer buflen, c = .ptsnameR buffer buflen →
    ∀ r, c.run E A fuel w out = some r → r.ret = -1 → r.buf = ⟨out, []⟩

/-- `z_ptsname_r` gets as far as opening the terminal, and the terminal can be opened. -/
def OpensTerminal (E : Env) (A : Answers) (w : World) (buffer : ℤ) : Prop :=
  buffer ≠ 0 ∧ (answered w A.ioctl).2 = 0 ∧ (zOpen E (answered w A.ioctl).1).2 ≠ -1

def DeviceCall.OpensTerminal (E : Env) (A : Answers) (w : World) : DeviceCall → Prop
  | .ptsnameR buffer _ => DeviceDescriptors.OpensTerminal E A w buffer
  | .ptsname => DeviceDescriptors.OpensTerminal E A (zMalloc E w).1 (zMalloc E w).2
  | _ => False

section

variable (E : Env) (A : Answers) (w : World) (out : Object) (buffer buflen : ℤ)

theorem zPtsnameR_fds :
    (zPtsnameR E A w out buffer buflen).world.fds = w.fds ↔ ¬ OpensTerminal E A w buffer := by
  have hopen := openFd_opens E (answered w A.ioctl).1 (c := .sysOpen) rfl
  unfold OpensTerminal zPtsnameR
  by_cases hbuf : buffer = 0
  · simp [hbuf]
  · by_cases herr : (answered w A.ioctl).2 = 0
    · have hfds : ∀ r : Returned,
          r.world.fds = (zOpen E (answered w A.ioctl).1).1.fds →
          (r.world.fds = w.fds ↔ ¬ (zOpen E (answered w A.ioctl).1).2 ≠ -1) := by
        intro r hr
        rw [hr]
        constructor
        · intro hsame hne
          obtain ⟨hnew, hone⟩ := hopen.one hne
          rw [answered_fds] at hnew hone
          have hmem := Finset.mem_insert_self (openFd E (answered w A.ioctl).1 .sysOpen).2 w.fds
          rw [← hone] at hmem
          exact hnew (hsame ▸ hmem)
        · intro hneg
          exact (hopen.none (not_not.mp hneg)).trans (answered_fds w A.ioctl)
      simp only [hbuf, herr, ne_eq, not_false_eq_true, true_and, if_false, not_true_eq_false]
      apply hfds
      split_ifs <;> exact answered_fds _ _
    · simp [hbuf, herr]

theorem zPtsnameR_buffer (h : (zPtsnameR E A w out buffer buflen).ret = -1) :
    (zPtsnameR E A w out buffer buflen).buf = out := by
  unfold zPtsnameR at h ⊢
  dsimp only at h ⊢
  split_ifs at h ⊢ <;> rfl

end

/-- A call keeps the descriptors unless it opens a terminal for its name. -/
theorem balanced_iff (E : Env) (A : Answers) (fuel : ℕ) (w : World) (out : Memory)
    (c : DeviceCall) : Balanced E A fuel w out c ↔ ¬ c.OpensTerminal E A w := by
  cases c with
  | ptsnameR buffer buflen =>
    have hfds := zPtsnameR_fds E A w ⟨out, []⟩ buffer buflen
    constructor
    · intro h
      exact hfds.mp (h.fds _ rfl)
    · intro h
      constructor
      · rintro r hr
        obtain rfl := Option.some.inj hr
        exact hfds.mpr h
      · rintro buffer' buflen' - r hr hret
        obtain rfl := Option.some.inj hr
        exact zPtsnameR_buffer E A w _ buffer buflen hret
  | ptsname =>
    have hmalloc : (zMalloc E w).1.fds = w.fds := (zMalloc_quiet E w).fds
    have hfds := zPtsnameR_fds E A (zMalloc E w).1 ⟨out, []⟩ (zMalloc E w).2 PTSNAME_MAX_SIZE
    rw [hmalloc] at hfds
    constructor
    · intro h
      exact hfds.mp (h.fds (zPtsname E A w ⟨out, []⟩) rfl)
    · intro h
      refine ⟨?_, fun _ _ hc => by cases hc⟩
      rintro r hr
      obtain rfl := Option.some.inj hr
      exact hfds.mpr h
  | sranddev next =>
    refine iff_of_true ⟨?_, fun _ _ hc => by cases hc⟩ id
    rintro r hr
    obtain rfl := Option.some.inj hr
    exact zSranddev_fds E A.device w next
  | devnameR frame dev type buf len =>
    refine iff_of_true ⟨?_, fun _ _ hc => by cases hc⟩ id
    rintro r hr
    obtain ⟨r', hrun, rfl⟩ := Option.map_eq_some_iff.mp hr
    exact zDevnameR_fds hrun

def ttyName : List UInt8 := [0x2f, 0x64, 0x65, 0x76, 0x2f, 0x74, 0x74, 0x79, 0x73, 0x30]

def granting : Answers where
  device := highDevice
  ioctl := .value 0
  fstat := .value 0
  ptsname := ⟨store (fun _ => 0) 0 ttyName, ttyName, ⟨by decide, by decide⟩, by decide⟩
  record _ := ⟨0, 0, 0, ⟨fun _ => 0, 0⟩⟩
  lstat _ := (.value 0, ⟨0, 0⟩)

theorem terminal_left_open :
    ¬ Balanced obliging granting 0 atRest (fun _ => 0) (.ptsnameR 0x4000 128) := by
  intro h
  have hsame := h.fds _ rfl
  exact (zPtsnameR_fds obliging granting atRest _ 0x4000 128).mp hsame
    ⟨by decide, rfl, by decide⟩

end DeviceDescriptors
