import LibSystemCall.DirentStream
import LibSystemCall.ErrnoCell
import Mathlib.Data.Finset.Basic

/-! # Descriptors of directory streams

`z_opendir2` and `z_closedir` as system calls: which descriptors are open afterwards, and what
the clean-up leaves in errno. Every call gets an answer of its own, so each can fail. -/
namespace DirentDescriptors

open ErrnoCell
open DirentStream (DTF_NODUP DTF_READALL DTF_SKIPREAD DTF_ATEND DIRBLKSIZ MNT_UNION)

def READDIR_INITIAL_SIZE : ℤ := 2048
def MAP_FAILED : ℤ := -1
def EINVAL : BitVec 32 := 22
def ENOTDIR : BitVec 32 := 20

/-- errno of a thread: in its record, or `__errno` where no slot is set. -/
structure Errno where
  cell : ErrnoCell.World
  owned : (∃ t, OwnsErrno cell t) ∨ zTsdGetDirect cell tsdErrno = 0

def Errno.code (e : Errno) : BitVec 32 := (readErrno e.cell).setWidth 32

/-- The code is the same; so are all the bits `z_errno` reads if they were just the code. -/
def Errno.Same (e e' : Errno) : Prop :=
  e'.code = e.code ∧
    (readErrno e.cell = e.code.signExtend 64 → readErrno e'.cell = readErrno e.cell)

theorem zPerrno_global {w : ErrnoCell.World} (h : zTsdGetDirect w tsdErrno = 0) :
    zPerrno w = .global := if_neg (not_not_intro h)

theorem global_apply {w : ErrnoCell.World} (h : zTsdGetDirect w tsdErrno = 0) (o : ErrnoStore) :
    apply w o = { w with errnoGlobal := o.code.signExtend 64 } := by
  cases o with
  | failedCall e =>
    have hs : zTsdGetDirect { w with errnoGlobal := e.signExtend 64 } tsdErrno = 0 := h
    simp only [apply, zCerrorNocancel, hs]
    rfl
  | assign e =>
    simp only [apply, assignErrno, zPerrno_global h]
    rfl

theorem read_global {w : ErrnoCell.World} (h : zTsdGetDirect w tsdErrno = 0) (o : ErrnoStore) :
    readErrno (apply w o) = o.code.signExtend 64 := by
  have hs : zTsdGetDirect { w with errnoGlobal := o.code.signExtend 64 } tsdErrno = 0 := h
  rw [global_apply h, readErrno, zPerrno_global hs]

theorem owned_apply {w : ErrnoCell.World}
    (h : (∃ t, OwnsErrno w t) ∨ zTsdGetDirect w tsdErrno = 0) (o : ErrnoStore) :
    (∃ t, OwnsErrno (apply w o) t) ∨ zTsdGetDirect (apply w o) tsdErrno = 0 := by
  rcases h with ⟨t, h⟩ | h
  · left
    exact ⟨t, owns_of_effect h (apply_effect h o)⟩
  · right
    rw [global_apply h]
    exact h

def Errno.store (e : Errno) (o : ErrnoStore) : Errno := ⟨apply e.cell o, owned_apply e.owned o⟩

@[simp] theorem code_store (e : Errno) (o : ErrnoStore) : (e.store o).code = o.code := by
  obtain ⟨w, ⟨t, h⟩ | h⟩ := e
  · have heff := apply_effect h o
    unfold Errno.code Errno.store
    rw [readErrno_eq (owns_of_effect h heff), BitVec.setWidth_append_eq_right]
    exact heff.cell
  · unfold Errno.code Errno.store
    rw [read_global h, signExtend_halves, BitVec.setWidth_append_eq_right]

theorem read_assigned (e : Errno) (c : BitVec 32) :
    readErrno (e.store (.assign c)).cell = c.signExtend 64 := by
  obtain ⟨w, ⟨t, h⟩ | h⟩ := e
  · have heff := apply_effect h (.assign c)
    unfold Errno.store
    rw [readErrno_eq (owns_of_effect h heff), heff.cell, heff.low, signExtend_halves]
    simp only [ErrnoStore.assigned, ErrnoStore.code, Option.map_some, Option.getD_some]
  · unfold Errno.store
    rw [read_global h]
    simp only [ErrnoStore.code]

-- From here on only these two facts about a store are needed.
attribute [irreducible] Errno.store

theorem Errno.Same.refl (e : Errno) : e.Same e := ⟨rfl, fun _ => rfl⟩

theorem Errno.Same.restored {e e₁ : Errno} (h : e.Same e₁) (e₂ : Errno) :
    e.Same (e₂.store (.assign e₁.code)) := by
  constructor
  · rw [code_store]
    exact h.1
  · intro hplain
    rw [read_assigned, h.1, hplain]

inductive Call where
  | sysOpen
  | sysMmap
  | sysSysctl
  | sysSysctlbyname
  | sysFstatfs
  | sysOpenat
  | sysLseek
  | sysGetdirentries
  | sysClose (fd : ℤ)
  | sysMunmap (addr : ℤ)
  deriving DecidableEq, Repr

def Call.cleansUp : Call → Bool
  | .sysClose _ | .sysMunmap _ => true
  | _ => false

/-- A code for errno, or what the call returns or writes. -/
inductive Answer where
  | failed (err : BitVec 32)
  | value (v : ℤ)

/-- The answer to each call in turn, with the flag that a read may leave behind its entries;
the descriptor that is given out next; and, for the scans of a full buffer, the number of live
entries and where they stop. -/
structure Env where
  answer : ℕ → Answer
  eof : ℕ → Bool
  newFd : Finset ℤ → ℤ
  live : ℕ
  scanned : ℤ
  fresh : ∀ fds, newFd fds ∉ fds
  nonneg : ∀ fds, 0 ≤ newFd fds

/-- The open descriptors, errno, and the calls made with the errno after each. -/
structure World where
  fds : Finset ℤ
  errno : Errno
  log : List (Call × Errno)

def World.setErrno (w : World) (e : BitVec 32) : World :=
  { w with errno := w.errno.store (.assign e) }

@[simp] theorem setErrno_log (w : World) (e : BitVec 32) : (w.setErrno e).log = w.log := rfl
@[simp] theorem setErrno_fds (w : World) (e : BitVec 32) : (w.setErrno e).fds = w.fds := rfl
@[simp] theorem setErrno_errno (w : World) (e : BitVec 32) :
    (w.setErrno e).errno = w.errno.store (.assign e) := rfl

/-- A failed call stores its code and has no value. -/
def issue (E : Env) (w : World) (c : Call) : World × Option ℤ :=
  match E.answer w.log.length with
  | .failed err =>
    let errno := w.errno.store (.failedCall err)
    ({ w with errno := errno, log := w.log ++ [(c, errno)] }, none)
  | .value v => ({ w with log := w.log ++ [(c, w.errno)] }, some v)

def openFd (E : Env) (w : World) (c : Call) : World × ℤ :=
  match issue E w c with
  | (w, none) => (w, -1)
  | (w, some _) => ({ w with fds := insert (E.newFd w.fds) w.fds }, E.newFd w.fds)

def zOpen (E : Env) (w : World) : World × ℤ := openFd E w .sysOpen
def zOpenat (E : Env) (w : World) : World × ℤ := openFd E w .sysOpenat

/-- The descriptor is gone even when an error is reported. -/
def zClose (E : Env) (w : World) (fd : ℤ) : World × ℤ :=
  let (w, r) := issue E w (.sysClose fd)
  ({ w with fds := w.fds.erase fd }, if r.isNone then -1 else 0)

/-- What is written is the value of the call, if there is one. -/
def zSysctl (E : Env) (w : World) (c : Call) (value : ℤ) : World × ℤ × ℤ :=
  match issue E w c with
  | (w, none) => (w, -1, value)
  | (w, some v) => (w, 0, v)

def zLseek (E : Env) (w : World) : World × ℤ :=
  let (w, pos) := issue E w .sysLseek
  (w, pos.getD (-1))

def zGetdirentries (E : Env) (w : World) : World × ℤ × Bool :=
  let eof := E.eof w.log.length
  let (w, n) := issue E w .sysGetdirentries
  (w, n.getD (-1), n.isSome && eof)

/-- 0 is the null pointer. -/
def zMalloc (E : Env) (w : World) : World × ℤ :=
  let (w, p) := issue E w .sysMmap
  let p := p.getD MAP_FAILED
  (w, if p = MAP_FAILED ∨ p = 0 then 0 else p)

def zFree (E : Env) (w : World) (addr : ℤ) : World :=
  if addr ≠ 0 then (issue E w (.sysMunmap addr)).1 else w

/-- `struct z_dir` at `addr`; `locq` are the `z_ddloc`s of its `z_telldir`. -/
structure Dir where
  addr : ℤ
  fd : ℤ
  loc : ℤ
  size : ℤ
  buf : ℤ
  len : ℤ
  flags : BitVec 32
  locq : List ℤ

def zKernelSupportsUnionfs (E : Env) (w : World) : World × Bool :=
  let (w, _, value) := zSysctl E w .sysSysctlbyname 0
  (w, value = 0)

def zFdIsOnUnionMount (E : Env) (w : World) : World × ℤ :=
  match issue E w .sysFstatfs with
  | (w, none) => (w, -1)
  | (w, some flags) => (w, if BitVec.ofInt 32 flags &&& MNT_UNION ≠ 0 then 1 else 0)

def zGetpagesize (E : Env) (w : World) : World × ℤ :=
  let (w, rc, value) := zSysctl E w .sysSysctl 0
  (w, if rc = -1 then -1 else value)

/-- `saved_errno = (z_int32)z_errno; z_close(fd); z_errno = saved_errno;` -/
def closeSaved (E : Env) (w : World) (fd : ℤ) : World :=
  let savedErrno := w.errno.code
  (zClose E w fd).1.setErrno savedErrno

structure Fill where
  space : ℤ
  len : ℤ
  ddptr : ℤ

/-- The loop that reads, with `buf` null as long as the line that gives it a block is a
comment. None when the fuel runs out; the loop has failed where there is no `Fill`. -/
def readEntries (E : Env) (buf incr fd2 : ℤ) : ℕ → World → Fill → Option (World × Option Fill)
  | 0, _, _ => none
  | fuel + 1, w, f =>
    let grows := f.space < DIRBLKSIZ
    let f := if grows then { f with space := f.space + incr, len := f.len + incr } else f
    if grows ∧ buf = 0 then some (closeSaved E w fd2, none)
    else
      let f := if grows then { f with ddptr := buf + (f.len - f.space) } else f
      let (w, n, _) := zGetdirentries E w
      if n < 0 then some (closeSaved E w fd2, none)
      else if n > 0 then
        readEntries E buf incr fd2 fuel w { f with ddptr := f.ddptr + n, space := f.space - n }
      else some (w, some f)

/-- The blocks that sorting takes and gives back: `dpv`, and one of `z_mergesort`. -/
def sortEntries (E : Env) (w : World) : World :=
  let (w, dpv) := zMalloc E w
  if dpv = 0 then w
  else
    let w :=
      if E.live = 0 then w
      else
        let (w, list2) := zMalloc E w
        if list2 = 0 then w else zFree E w list2
    zFree E w dpv

def seekCurrent (E : Env) (w : World) (useCurrentPos : Bool) : World × Bool :=
  if useCurrentPos then
    let (w, pos) := zLseek E w
    if pos = -1 then (w, false)
    else
      let (w, pos) := zLseek E w
      (w, decide (pos ≠ -1))
  else (w, true)

/-- From the end of the loop on: `fd2` is closed, and the entries are sorted. -/
def finishRead (E : Env) (dirp : Dir) (buf fd2 : ℤ) : World × Option Fill → World × Option Dir
  | (w, none) => (w, none)
  | (w, some f) =>
    (sortEntries E (zClose E w fd2).1,
      some { dirp with buf := buf, len := f.len, size := E.scanned })

/-- From the reopened descriptor on. -/
def fillOpened (E : Env) (fuel : ℕ) (w : World) (dirp : Dir) (useCurrentPos : Bool)
    (buf incr fd2 : ℤ) : Option (World × Option Dir) :=
  let (w, sought) := seekCurrent E w useCurrentPos
  if sought then
    (readEntries E buf incr fd2 fuel w ⟨0, 0, 0⟩).map (finishRead E dirp buf fd2)
  else some (closeSaved E w fd2, none)

/-- A result of 0 is no stream. -/
def zFilldir (E : Env) (fuel : ℕ) (w : World) (dirp : Dir) (useCurrentPos : Bool) :
    Option (World × Option Dir) :=
  let buf : ℤ := 0
  let (w, pagesize) := zGetpagesize E w
  let incr := if pagesize.tmod DIRBLKSIZ ≠ 0 then DIRBLKSIZ else pagesize
  let (w, fd2) := zOpenat E w
  if fd2 = -1 then some (w, none)
  else fillOpened E fuel w dirp useCurrentPos buf incr fd2

def primeBuffer (E : Env) (w : World) (dirp : Dir) (useCurrentPos : Bool) : World × Dir × Bool :=
  let (w, buf) := zMalloc E w
  let dirp := { dirp with len := READDIR_INITIAL_SIZE, buf := buf }
  if buf = 0 then (w, dirp, false)
  else if useCurrentPos then
    let (w, size, eof) := zGetdirentries E w
    let atEnd := 0 ≤ size ∧ size ≤ dirp.len - 4 ∧ eof
    let flags := if atEnd then dirp.flags ||| DTF_ATEND else dirp.flags
    let dirp := { dirp with size := size, flags := flags }
    if size < 0 then
      (if readErrno w.errno.cell = EINVAL.signExtend 64 then w.setErrno ENOTDIR else w, dirp, false)
    else (w, { dirp with flags := dirp.flags ||| DTF_SKIPREAD }, true)
  else (w, { dirp with size := 0 }, true)

/-- From the label `fail` on. -/
def failCommon (E : Env) (w : World) (dirp : Dir) : World :=
  let savedErrno := w.errno.code
  (zFree E (zFree E w dirp.buf) dirp.addr).setErrno savedErrno

def unionstackOf (E : Env) (w : World) (flags : BitVec 32) : World × ℤ :=
  if flags &&& DTF_NODUP ≠ 0 then
    let (w, supported) := zKernelSupportsUnionfs E w
    if supported then zFdIsOnUnionMount E w else (w, 0)
  else (w, 0)

def finishFill (E : Env) (dirp : Dir) : World × Option Dir → World × Option Dir
  | (w, none) => (failCommon E w dirp, none)
  | (w, some dirp) => (w, some { dirp with flags := dirp.flags ||| DTF_READALL })

def zOpendirCommon (E : Env) (fuel : ℕ) (w : World) (fd : ℤ) (flags : BitVec 32)
    (useCurrentPos : Bool) : Option (World × Option Dir) :=
  let (w, addr) := zMalloc E w
  if addr = 0 then some (w, none)
  else
    let dirp : Dir := ⟨addr, fd, 0, 0, 0, 0, flags, []⟩
    let (w, unionstack) := unionstackOf E w flags
    if unionstack < 0 then some (failCommon E w dirp, none)
    else if unionstack ≠ 0 then
      (zFilldir E fuel w dirp useCurrentPos).map (finishFill E dirp)
    else
      let (w, dirp, had) := primeBuffer E w dirp useCurrentPos
      if had then some (w, some dirp) else some (failCommon E w dirp, none)

def keepOrClose (E : Env) (fd : ℤ) : World × Option Dir → World × Option Dir
  | (w, none) => (closeSaved E w fd, none)
  | (w, some dir) => (w, some dir)

def zOpendir2 (E : Env) (fuel : ℕ) (w : World) (flags : BitVec 32) :
    Option (World × Option Dir) :=
  if flags &&& (DTF_READALL ||| DTF_SKIPREAD) ≠ 0 then some (w, none)
  else
    let (w, fd) := zOpen E w
    if fd = -1 then some (w, none)
    else (zOpendirCommon E fuel w fd flags false).map (keepOrClose E fd)

def zReclaimTelldir (E : Env) (w : World) (dirp : Dir) : World :=
  dirp.locq.foldl (zFree E) w

def zFdclosedir (E : Env) (w : World) (dirp : Dir) : World × ℤ :=
  let fd := dirp.fd
  (zFree E (zReclaimTelldir E (zFree E w dirp.buf) dirp) dirp.addr, fd)

def zClosedir (E : Env) (w : World) (dirp : Dir) : World × ℤ :=
  let (w, fd) := zFdclosedir E w dirp
  zClose E w fd

/-- errno after the last of the calls that does more than clean up; `errno` if there is none. -/
def detectedErrno (errno : Errno) (steps : List (Call × Errno)) : Errno :=
  ((steps.filter fun c => !c.1.cleansUp).getLast?.map Prod.snd).getD errno

theorem detectedErrno_append (errno : Errno) (xs ys : List (Call × Errno)) :
    detectedErrno errno (xs ++ ys) = detectedErrno (detectedErrno errno xs) ys := by
  unfold detectedErrno
  rw [List.filter_append, List.getLast?_append]
  cases (ys.filter fun c => !c.1.cleansUp).getLast? <;> rfl

theorem detectedErrno_cleanup {errno : Errno} {steps : List (Call × Errno)}
    (h : ∀ c ∈ steps, c.1.cleansUp) : detectedErrno errno steps = errno := by
  have hnil : (steps.filter fun c => !c.1.cleansUp) = [] := by
    apply List.filter_eq_nil_iff.mpr
    intro c hc
    simp [h c hc]
  rw [detectedErrno, hnil]
  rfl

def Ran (w w' : World) : Prop :=
  ∃ steps, w'.log = w.log ++ steps ∧ w'.errno = detectedErrno w.errno steps

def CleanedUp (w w' : World) : Prop :=
  ∃ steps, w'.log = w.log ++ steps ∧ ∀ c ∈ steps, c.1.cleansUp

/-- `w'` is reached from `w`, and errno is what it was when the last call was made that does
more than clean up. -/
def Failed (w w' : World) : Prop :=
  ∃ steps, w'.log = w.log ++ steps ∧ (detectedErrno w.errno steps).Same w'.errno

theorem Ran.refl (w : World) : Ran w w := by
  refine ⟨[], ?_, ?_⟩
  · rw [List.append_nil]
  · rfl

theorem Ran.trans {w w₁ w₂ : World} (h : Ran w w₁) (h' : Ran w₁ w₂) : Ran w w₂ := by
  obtain ⟨xs, hlog, herrno⟩ := h
  obtain ⟨ys, hlog', herrno'⟩ := h'
  refine ⟨xs ++ ys, ?_, ?_⟩
  · rw [hlog', hlog, List.append_assoc]
  · rw [herrno', herrno, detectedErrno_append]

theorem Ran.failed {w w' : World} (h : Ran w w') : Failed w w' := by
  obtain ⟨steps, hlog, herrno⟩ := h
  refine ⟨steps, hlog, ?_⟩
  rw [herrno]
  exact .refl _

theorem Ran.trans_failed {w w₁ w₂ : World} (h : Ran w w₁) (h' : Failed w₁ w₂) : Failed w w₂ := by
  obtain ⟨xs, hlog, herrno⟩ := h
  obtain ⟨ys, hlog', hsame⟩ := h'
  refine ⟨xs ++ ys, ?_, ?_⟩
  · rw [hlog', hlog, List.append_assoc]
  · rw [detectedErrno_append, ← herrno]
    exact hsame

theorem CleanedUp.refl (w : World) : CleanedUp w w := by
  refine ⟨[], ?_, ?_⟩
  · rw [List.append_nil]
  · intro c hc
    exact absurd hc List.not_mem_nil

theorem CleanedUp.trans {w w₁ w₂ : World} (h : CleanedUp w w₁) (h' : CleanedUp w₁ w₂) :
    CleanedUp w w₂ := by
  obtain ⟨xs, hlog, hxs⟩ := h
  obtain ⟨ys, hlog', hys⟩ := h'
  refine ⟨xs ++ ys, ?_, ?_⟩
  · rw [hlog', hlog, List.append_assoc]
  · intro c hc
    exact (List.mem_append.mp hc).elim (hxs c) (hys c)

/-- The errno saved before a clean-up, whatever the clean-up does to it. -/
theorem Failed.restored {w w₁ w₂ : World} (h : Failed w w₁) (hc : CleanedUp w₁ w₂) :
    Failed w (w₂.setErrno w₁.errno.code) := by
  obtain ⟨xs, hlog, hsame⟩ := h
  obtain ⟨ys, hlog', hys⟩ := hc
  refine ⟨xs ++ ys, ?_, ?_⟩
  · rw [setErrno_log, hlog', hlog, List.append_assoc]
  · rw [detectedErrno_append, detectedErrno_cleanup hys, setErrno_errno]
    exact hsame.restored _

variable {E : Env} {w : World}

theorem issue_log (E : Env) (w : World) (c : Call) :
    (issue E w c).1.log = w.log ++ [(c, (issue E w c).1.errno)] := by
  unfold issue
  cases E.answer w.log.length <;> rfl

@[simp] theorem issue_fds (E : Env) (w : World) (c : Call) : (issue E w c).1.fds = w.fds := by
  unfold issue
  cases E.answer w.log.length <;> rfl

theorem issue_ran (E : Env) (w : World) {c : Call} (hc : c.cleansUp = false) :
    Ran w (issue E w c).1 := by
  refine ⟨_, issue_log E w c, ?_⟩
  simp [detectedErrno, hc]

theorem issue_cleanedUp (E : Env) (w : World) {c : Call} (hc : c.cleansUp = true) :
    CleanedUp w (issue E w c).1 := by
  refine ⟨_, issue_log E w c, ?_⟩
  intro d hd
  rw [List.mem_singleton.mp hd]
  exact hc

/-- A function of the library that opens and closes nothing and leaves errno to its calls. -/
structure Quiet (w w' : World) : Prop where
  ran : Ran w w'
  fds : w'.fds = w.fds

theorem Quiet.refl (w : World) : Quiet w w := ⟨.refl w, rfl⟩

theorem Quiet.trans {w w₁ w₂ : World} (h : Quiet w w₁) (h' : Quiet w₁ w₂) : Quiet w w₂ :=
  ⟨h.ran.trans h'.ran, h'.fds.trans h.fds⟩

theorem issue_quiet (E : Env) (w : World) {c : Call} (hc : c.cleansUp = false) :
    Quiet w (issue E w c).1 := ⟨issue_ran E w hc, issue_fds E w c⟩

theorem zSysctl_quiet (E : Env) (w : World) {c : Call} (hc : c.cleansUp = false) (value : ℤ) :
    Quiet w (zSysctl E w c value).1 := by
  have h := issue_quiet E w hc
  unfold zSysctl
  revert h
  rcases issue E w c with ⟨w', _ | v⟩ <;> exact id

theorem zLseek_quiet (E : Env) (w : World) : Quiet w (zLseek E w).1 := issue_quiet E w rfl

theorem zGetdirentries_quiet (E : Env) (w : World) : Quiet w (zGetdirentries E w).1 :=
  issue_quiet E w rfl

theorem zMalloc_quiet (E : Env) (w : World) : Quiet w (zMalloc E w).1 := issue_quiet E w rfl

theorem zKernelSupportsUnionfs_quiet (E : Env) (w : World) :
    Quiet w (zKernelSupportsUnionfs E w).1 := zSysctl_quiet E w rfl 0

theorem zGetpagesize_quiet (E : Env) (w : World) : Quiet w (zGetpagesize E w).1 :=
  zSysctl_quiet E w rfl 0

theorem zFdIsOnUnionMount_quiet (E : Env) (w : World) : Quiet w (zFdIsOnUnionMount E w).1 := by
  have h := issue_quiet E w (c := .sysFstatfs) rfl
  unfold zFdIsOnUnionMount
  revert h
  rcases issue E w .sysFstatfs with ⟨w', _ | v⟩ <;> exact id

theorem unionstackOf_quiet (E : Env) (w : World) (flags : BitVec 32) :
    Quiet w (unionstackOf E w flags).1 := by
  have h := zKernelSupportsUnionfs_quiet E w
  unfold unionstackOf
  split
  · dsimp only
    split
    · exact h.trans (zFdIsOnUnionMount_quiet E _)
    · exact h
  · exact .refl w

theorem seekCurrent_quiet (E : Env) (w : World) (useCurrentPos : Bool) :
    Quiet w (seekCurrent E w useCurrentPos).1 := by
  have h := zLseek_quiet E w
  unfold seekCurrent
  split
  · dsimp only
    split
    · exact h
    · exact h.trans (zLseek_quiet E _)
  · exact .refl w

structure Opens (w w' : World) (fd : ℤ) : Prop where
  ran : Ran w w'
  none : fd = -1 → w'.fds = w.fds
  one : fd ≠ -1 → fd ∉ w.fds ∧ w'.fds = insert fd w.fds

theorem openFd_opens (E : Env) (w : World) {c : Call} (hc : c.cleansUp = false) :
    Opens w (openFd E w c).1 (openFd E w c).2 := by
  have h := issue_quiet E w hc
  unfold openFd
  revert h
  rcases issue E w c with ⟨w', _ | v⟩
  · intro h
    exact ⟨h.ran, fun _ => h.fds, fun hne => absurd rfl hne⟩
  · intro h
    have hfds : w'.fds = w.fds := h.fds
    refine ⟨h.ran, ?_, ?_⟩
    · intro hneg
      have hpos := E.nonneg w'.fds
      dsimp only at hneg
      omega
    · intro _
      constructor
      · rw [← hfds]
        exact E.fresh _
      · dsimp only
        rw [hfds]

theorem zClose_fds (E : Env) (w : World) (fd : ℤ) : (zClose E w fd).1.fds = w.fds.erase fd := by
  change (issue E w _).1.fds.erase fd = _
  rw [issue_fds]

theorem zClose_cleanedUp (E : Env) (w : World) (fd : ℤ) : CleanedUp w (zClose E w fd).1 :=
  issue_cleanedUp E w (c := .sysClose fd) rfl

theorem closeSaved_fds (E : Env) (w : World) (fd : ℤ) :
    (closeSaved E w fd).fds = w.fds.erase fd := zClose_fds E w fd

theorem closeSaved_failed {w₁ : World} (E : Env) (h : Failed w w₁) (fd : ℤ) :
    Failed w (closeSaved E w₁ fd) := h.restored (zClose_cleanedUp E w₁ fd)

structure Freed (w w' : World) : Prop where
  cleanedUp : CleanedUp w w'
  fds : w'.fds = w.fds

theorem Freed.refl (w : World) : Freed w w := ⟨.refl w, rfl⟩

theorem Freed.trans {w w₁ w₂ : World} (h : Freed w w₁) (h' : Freed w₁ w₂) : Freed w w₂ :=
  ⟨h.cleanedUp.trans h'.cleanedUp, h'.fds.trans h.fds⟩

theorem zFree_freed (E : Env) (w : World) (addr : ℤ) : Freed w (zFree E w addr) := by
  unfold zFree
  split
  · exact ⟨issue_cleanedUp E w rfl, issue_fds E w _⟩
  · exact .refl w

theorem zReclaimTelldir_freed (E : Env) (w : World) (dirp : Dir) :
    Freed w (zReclaimTelldir E w dirp) := by
  unfold zReclaimTelldir
  induction dirp.locq generalizing w with
  | nil => exact .refl w
  | cons lp locq ih => exact (zFree_freed E w lp).trans (ih _)

theorem sortEntries_fds (E : Env) (w : World) : (sortEntries E w).fds = w.fds := by
  have hdpv := (zMalloc_quiet E w).fds
  unfold sortEntries
  dsimp only
  split
  · exact hdpv
  · rw [(zFree_freed E _ _).fds]
    split
    · exact hdpv
    · split
      · exact (zMalloc_quiet E _).fds.trans hdpv
      · rw [(zFree_freed E _ _).fds]
        exact (zMalloc_quiet E _).fds.trans hdpv

theorem failCommon_fds (E : Env) (w : World) (dirp : Dir) :
    (failCommon E w dirp).fds = w.fds :=
  ((zFree_freed E w dirp.buf).trans (zFree_freed E _ dirp.addr)).fds

theorem failCommon_failed {w₁ : World} (E : Env) (h : Failed w w₁) (dirp : Dir) :
    Failed w (failCommon E w₁ dirp) :=
  h.restored ((zFree_freed E w₁ dirp.buf).trans (zFree_freed E _ dirp.addr)).cleanedUp

/-- Without a result errno tells why and `left` are open; with one, `held`. -/
structure Ends {α : Type} (w : World) (left held : Finset ℤ) (r : World × Option α) : Prop where
  null : r.2 = none → Failed w r.1 ∧ r.1.fds = left
  made : ∀ a, r.2 = some a → r.1.fds = held

section

variable {α : Type} {w₁ : World} {left held : Finset ℤ}

theorem Ends.failed (h : Failed w w₁) (hfds : w₁.fds = left) :
    Ends w left held (w₁, (none : Option α)) :=
  ⟨fun _ => ⟨h, hfds⟩, by simp⟩

theorem Ends.done (hfds : w₁.fds = held) (a : α) : Ends w left held (w₁, some a) :=
  ⟨by simp, fun _ _ => hfds⟩

theorem Ends.after {r : World × Option α} (hran : Ran w w₁) (h : Ends w₁ left held r) :
    Ends w left held r :=
  ⟨fun hnone => ⟨hran.trans_failed (h.null hnone).1, (h.null hnone).2⟩, h.made⟩

end

theorem readEntries_ends {buf incr fd2 : ℤ} {fuel : ℕ} {f : Fill} {r : World × Option Fill}
    (h : readEntries E buf incr fd2 fuel w f = some r) :
    Ends w (w.fds.erase fd2) w.fds r := by
  induction fuel generalizing w f with
  | zero => simp [readEntries] at h
  | succ fuel ih =>
    have hread := zGetdirentries_quiet E w
    unfold readEntries at h
    dsimp only at h
    split at h
    · obtain rfl := Option.some.inj h
      exact .failed (closeSaved_failed E (Ran.refl w).failed fd2) (closeSaved_fds E w fd2)
    · split at h
      · obtain rfl := Option.some.inj h
        apply Ends.failed (closeSaved_failed E hread.ran.failed fd2)
        rw [closeSaved_fds, hread.fds]
      · split at h
        · have hrest := ih h
          rw [hread.fds] at hrest
          exact .after hread.ran hrest
        · obtain rfl := Option.some.inj h
          exact .done hread.fds _

theorem fillOpened_ends {fuel : ℕ} {dirp : Dir} {useCurrentPos : Bool} {buf incr fd2 : ℤ}
    {r : World × Option Dir}
    (h : fillOpened E fuel w dirp useCurrentPos buf incr fd2 = some r) :
    Ends w (w.fds.erase fd2) (w.fds.erase fd2) r ∧ ∀ d, r.2 = some d → d.fd = dirp.fd := by
  have hseek := seekCurrent_quiet E w useCurrentPos
  unfold fillOpened at h
  dsimp only at h
  split at h
  · obtain ⟨⟨w', f⟩, hread, rfl⟩ := Option.map_eq_some_iff.mp h
    have hends := readEntries_ends hread
    rw [hseek.fds] at hends
    cases f with
    | none =>
      obtain ⟨hfail, hfds⟩ := hends.null rfl
      exact ⟨.failed (hseek.ran.trans_failed hfail) hfds, by simp [finishRead]⟩
    | some f =>
      constructor
      · apply Ends.done
        rw [sortEntries_fds, zClose_fds, hends.made f rfl]
      · intro d hd
        obtain rfl := Option.some.inj hd
        rfl
  · obtain rfl := Option.some.inj h
    refine ⟨.failed (closeSaved_failed E hseek.ran.failed fd2) ?_, by simp⟩
    rw [closeSaved_fds, hseek.fds]

theorem zFilldir_ends {fuel : ℕ} {dirp : Dir} {useCurrentPos : Bool} {r : World × Option Dir}
    (h : zFilldir E fuel w dirp useCurrentPos = some r) :
    Ends w w.fds w.fds r ∧ ∀ d, r.2 = some d → d.fd = dirp.fd := by
  have hpage := zGetpagesize_quiet E w
  have hopen := openFd_opens E (zGetpagesize E w).1 (c := .sysOpenat) rfl
  have hran := hpage.ran.trans hopen.ran
  unfold zFilldir zOpenat at h
  dsimp only at h
  split at h
  · next hneg =>
    obtain rfl := Option.some.inj h
    refine ⟨.failed hran.failed ?_, by simp⟩
    rw [hopen.none hneg, hpage.fds]
  · next hne =>
    obtain ⟨hnew, hfds⟩ := hopen.one hne
    obtain ⟨hends, hfd⟩ := fillOpened_ends h
    rw [hfds, Finset.erase_insert hnew, hpage.fds] at hends
    exact ⟨hends.after hran, hfd⟩

theorem primeBuffer_quiet (E : Env) (w : World) (dirp : Dir) :
    Quiet w (primeBuffer E w dirp false).1 ∧ (primeBuffer E w dirp false).2.1.fd = dirp.fd := by
  have h := zMalloc_quiet E w
  unfold primeBuffer
  dsimp only
  split
  · exact ⟨h, rfl⟩
  · exact ⟨h, rfl⟩

theorem zOpendirCommon_ends {fuel : ℕ} {fd : ℤ} {flags : BitVec 32} {r : World × Option Dir}
    (h : zOpendirCommon E fuel w fd flags false = some r) :
    Ends w w.fds w.fds r ∧ ∀ d, r.2 = some d → d.fd = fd := by
  have hmalloc := zMalloc_quiet E w
  have hunion := hmalloc.trans (unionstackOf_quiet E (zMalloc E w).1 flags)
  unfold zOpendirCommon at h
  dsimp only at h
  split at h
  · obtain rfl := Option.some.inj h
    exact ⟨.failed hmalloc.ran.failed hmalloc.fds, by simp⟩
  · split at h
    · obtain rfl := Option.some.inj h
      refine ⟨.failed (failCommon_failed E hunion.ran.failed _) ?_, by simp⟩
      rw [failCommon_fds, hunion.fds]
    · split at h
      · obtain ⟨⟨w', d⟩, hfill, rfl⟩ := Option.map_eq_some_iff.mp h
        obtain ⟨hends, hfd⟩ := zFilldir_ends hfill
        rw [hunion.fds] at hends
        cases d with
        | none =>
          obtain ⟨hfail, hfds⟩ := hends.null rfl
          refine ⟨.failed (failCommon_failed E (hunion.ran.trans_failed hfail) _) ?_, ?_⟩
          · rw [failCommon_fds, hfds]
          · simp [finishFill]
        | some d =>
          refine ⟨.done (hends.made d rfl) _, ?_⟩
          intro d' hd'
          obtain rfl := Option.some.inj hd'
          exact hfd d rfl
      · obtain ⟨hprime, hfd⟩ := primeBuffer_quiet E (unionstackOf E (zMalloc E w).1 flags).1
          ⟨(zMalloc E w).2, fd, 0, 0, 0, 0, flags, []⟩
        have hall := hunion.trans hprime
        split at h
        · obtain rfl := Option.some.inj h
          refine ⟨.done hall.fds _, ?_⟩
          intro d hd
          obtain rfl := Option.some.inj hd
          exact hfd
        · obtain rfl := Option.some.inj h
          refine ⟨.failed (failCommon_failed E hall.ran.failed _) ?_, by simp⟩
          rw [failCommon_fds, hall.fds]

theorem readEntries_null (E : Env) (incr fd2 : ℤ) (fuel : ℕ) (w : World) :
    readEntries E 0 incr fd2 (fuel + 1) w ⟨0, 0, 0⟩ = some (closeSaved E w fd2, none) := by
  simp [readEntries, DIRBLKSIZ]

theorem zFilldir_returns (E : Env) (fuel : ℕ) (w : World) (dirp : Dir) (useCurrentPos : Bool) :
    ∃ r, zFilldir E (fuel + 1) w dirp useCurrentPos = some r := by
  unfold zFilldir fillOpened
  dsimp only
  split
  · exact ⟨_, rfl⟩
  · split
    · rw [readEntries_null]
      exact ⟨_, rfl⟩
    · exact ⟨_, rfl⟩

theorem zOpendirCommon_returns (E : Env) (fuel : ℕ) (w : World) (fd : ℤ) (flags : BitVec 32) :
    ∃ r, zOpendirCommon E (fuel + 1) w fd flags false = some r := by
  unfold zOpendirCommon
  dsimp only
  split
  · exact ⟨_, rfl⟩
  · split
    · exact ⟨_, rfl⟩
    · split
      · obtain ⟨r, hr⟩ := zFilldir_returns E fuel (unionstackOf E (zMalloc E w).1 flags).1
          ⟨(zMalloc E w).2, fd, 0, 0, 0, 0, flags, []⟩ false
        rw [hr]
        exact ⟨_, rfl⟩
      · split <;> exact ⟨_, rfl⟩

theorem zClosedir_fds (E : Env) (w : World) (dirp : Dir) :
    (zClosedir E w dirp).1.fds = w.fds.erase dirp.fd := by
  have h := (zFree_freed E w dirp.buf).trans (zReclaimTelldir_freed E _ dirp)
  unfold zClosedir zFdclosedir
  dsimp only
  rw [zClose_fds, (h.trans (zFree_freed E _ dirp.addr)).fds]

/-- What a call of `z_opendir2` leaves behind: no descriptor and the errno of the step that
failed, or a stream with one new descriptor that `z_closedir` closes. -/
structure Accounted (w : World) (r : World × Option Dir) : Prop where
  null : r.2 = none → r.1.fds = w.fds ∧ Failed w r.1
  stream : ∀ d, r.2 = some d → d.fd ∉ w.fds ∧ r.1.fds = insert d.fd w.fds
  closes : ∀ d, r.2 = some d → ∀ (E : Env) (w' : World) (d' : Dir), d'.fd = d.fd →
    (zClosedir E w' d').1.fds = w'.fds.erase d.fd

/-- Whatever the calls answer, nothing is leaked and errno survives the clean-up. -/
theorem opendir2_accounted (E : Env) (fuel : ℕ) (w : World) (flags : BitVec 32) :
    ∃ r, zOpendir2 E (fuel + 1) w flags = some r ∧ Accounted w r := by
  have hopen := openFd_opens E w (c := .sysOpen) rfl
  unfold zOpendir2 zOpen
  dsimp only
  split
  · refine ⟨_, rfl, ?_, by simp, by simp⟩
    intro _
    exact ⟨rfl, (Ran.refl w).failed⟩
  · split
    · next hneg =>
      refine ⟨_, rfl, ?_, by simp, by simp⟩
      intro _
      exact ⟨hopen.none hneg, hopen.ran.failed⟩
    · next hne =>
      obtain ⟨hnew, hfds⟩ := hopen.one hne
      obtain ⟨⟨w', dir⟩, hr⟩ := zOpendirCommon_returns E fuel (openFd E w .sysOpen).1
        (openFd E w .sysOpen).2 flags
      obtain ⟨hends, hfd⟩ := zOpendirCommon_ends hr
      rw [hr]
      refine ⟨_, rfl, ?_⟩
      cases dir with
      | none =>
        obtain ⟨hfail, hleft⟩ := hends.null rfl
        refine ⟨?_, by simp [keepOrClose], by simp [keepOrClose]⟩
        intro _
        constructor
        · change (closeSaved E w' _).fds = _
          rw [closeSaved_fds, hleft, hfds, Finset.erase_insert hnew]
        · exact closeSaved_failed E (hopen.ran.trans_failed hfail) _
      | some d =>
        have hd : d.fd = (openFd E w .sysOpen).2 := hfd d rfl
        refine ⟨by simp [keepOrClose], ?_, ?_⟩
        · intro d' hd'
          obtain rfl := Option.some.inj hd'
          rw [hd]
          exact ⟨hnew, (hends.made d rfl).trans hfds⟩
        · intro d' _ E' w' d₂ hsame
          rw [zClosedir_fds, hsame]

end DirentDescriptors
