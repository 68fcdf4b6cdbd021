import LibSystemCall.StructLayout
import Mathlib.Logic.Function.Basic

/-! # Contexts and the routines that save and resume them

The registers, the words of the stacks and the contexts. Assembly is a list of instructions;
the offsets in it are those of the fields of the C structures. Stacks and contexts do not
overlap. -/
namespace ContextMachine

open StructLayout

/-- The fields of `struct x86_thread_state64`, 8 bytes each. -/
inductive StateField where
  | rax | rbx | rcx | rdx | rdi | rsi | rbp | rsp | r8 | r9 | r10 | r11 | r12 | r13 | r14 | r15
  | rip | rflags | cs | fs | gs
  deriving DecidableEq

def stateFields : List StateField :=
  [.rax, .rbx, .rcx, .rdx, .rdi, .rsi, .rbp, .rsp, .r8, .r9, .r10, .r11, .r12, .r13, .r14, .r15,
    .rip, .rflags, .cs, .fs, .gs]

/-- `es` and `fs` are the structures of exceptions and of the floating-point unit. -/
inductive McontextField where
  | es
  | ss (field : StateField)
  | fs
  deriving DecidableEq

def mcontextShape : Shape McontextField where
  fields := .es :: stateFields.map .ss ++ [.fs]
  size
    | .es => 16
    | .ss _ => 8
    | .fs => 524
  align
    | .fs => 4
    | _ => 8
  complete f := by
    cases f with
    | es => decide
    | ss field => cases field <;> decide
    | fs => decide
  align_pos f := by cases f <;> exact Nat.succ_pos _

inductive UcontextField where
  | ucOnstack | ucSigmask | ucStack | ucLink | ucMcsize | ucMcontext | mcontextData
  deriving DecidableEq

def ucontextShape : Shape UcontextField where
  fields := [.ucOnstack, .ucSigmask, .ucStack, .ucLink, .ucMcsize, .ucMcontext, .mcontextData]
  size
    | .ucOnstack | .ucSigmask => 4
    | .ucStack => 24
    | .mcontextData => mcontextShape.bytes
    | _ => 8
  align
    | .ucOnstack | .ucSigmask => 4
    | _ => 8
  complete f := by cases f <;> decide
  align_pos f := by cases f <;> decide

def fieldAt (offset : ℕ) : Option StateField :=
  stateFields.find? fun f => mcontextShape.offset (.ss f) = offset

def mcontextOf (uctx : BitVec 64) : BitVec 64 :=
  uctx + BitVec.ofNat 64 (ucontextShape.offset .mcontextData)

def contextAt (p : BitVec 64) : BitVec 64 :=
  p - BitVec.ofNat 64 (ucontextShape.offset .mcontextData)

structure SignalStack where
  sp : BitVec 64
  size : BitVec 64
  flags : BitVec 32
  deriving DecidableEq

/-- `state` is the thread state in `mcontext_data`. -/
structure Ucontext where
  onstack : BitVec 32
  sigmask : BitVec 32
  stack : SignalStack
  link : BitVec 64
  mcsize : BitVec 64
  mcontext : BitVec 64
  state : StateField → BitVec 64

inductive Reg where
  | rax | rbx | rcx | rdx | rdi | rsi | rbp | rsp | r8 | r9 | r10 | r11 | r12 | r13 | r14 | r15
  deriving DecidableEq

/-- `word` has the aligned words of the stacks, `ctx` the contexts by their addresses; `mask` is
the signal mask of the thread. -/
structure Machine where
  reg : Reg → BitVec 64
  rip : BitVec 64
  word : BitVec 64 → BitVec 64
  ctx : BitVec 64 → Ucontext
  mask : BitVec 32

def Machine.setReg (m : Machine) (r : Reg) (v : BitVec 64) : Machine :=
  { m with reg := Function.update m.reg r v }

def Machine.setWord (m : Machine) (a v : BitVec 64) : Machine :=
  { m with word := Function.update m.word a v }

def Machine.setCtx (m : Machine) (uctx : BitVec 64) (c : Ucontext) : Machine :=
  { m with ctx := Function.update m.ctx uctx c }

def Machine.field (m : Machine) (p : BitVec 64) (offset : ℕ) : BitVec 64 :=
  match fieldAt offset with
  | some f => (m.ctx (contextAt p)).state f
  | none => 0

def Machine.setField (m : Machine) (p : BitVec 64) (offset : ℕ) (v : BitVec 64) : Machine :=
  match fieldAt offset with
  | some f =>
    let c := m.ctx (contextAt p)
    m.setCtx (contextAt p) { c with state := Function.update c.state f v }
  | none => m

/-- Sources before destinations; `load`, `store` and `jump` have an offset in a context,
`top` is `(%rsp)` and `lea` an offset from `%rsp`. -/
inductive Instr where
  | push (src : Reg)
  | pop (dst : Reg)
  | mov (src dst : Reg)
  | load (offset : ℕ) (base dst : Reg)
  | store (src : Reg) (offset : ℕ) (base : Reg)
  | top (dst : Reg)
  | lea (offset : BitVec 64) (dst : Reg)
  | clear (dst : Reg)
  | jump (offset : ℕ) (base : Reg)
  | ret

def Machine.push (m : Machine) (v : BitVec 64) : Machine :=
  let sp := m.reg .rsp - 8
  (m.setWord sp v).setReg .rsp sp

def Machine.call (m : Machine) (argument ra : BitVec 64) : Machine :=
  (m.setReg .rdi argument).push ra

def exec (m : Machine) : Instr → Machine
  | .push src => m.push (m.reg src)
  | .pop dst => (m.setReg .rsp (m.reg .rsp + 8)).setReg dst (m.word (m.reg .rsp))
  | .mov src dst => m.setReg dst (m.reg src)
  | .load offset base dst => m.setReg dst (m.field (m.reg base) offset)
  | .store src offset base => m.setField (m.reg base) offset (m.reg src)
  | .top dst => m.setReg dst (m.word (m.reg .rsp))
  | .lea offset dst => m.setReg dst (m.reg .rsp + offset)
  | .clear dst => m.setReg dst 0
  | .jump offset base => { m with rip := m.field (m.reg base) offset }
  | .ret => { m.setReg .rsp (m.reg .rsp + 8) with rip := m.word (m.reg .rsp) }

def run (m : Machine) (code : List Instr) : Machine := code.foldl exec m

def MCONTEXT_SS_RBX : ℕ := 24
def MCONTEXT_SS_RBP : ℕ := 64
def MCONTEXT_SS_RSP : ℕ := 72
def MCONTEXT_SS_R8 : ℕ := 80
def MCONTEXT_SS_RIP : ℕ := 144

/-- Before and after `call _z_getmcontext`. -/
def getcontextHead : List Instr := [.push .rbp, .mov .rsp .rbp, .mov .rsp .rsi]

def getcontextTail : List Instr :=
  [.pop .rbp, .store .rbp MCONTEXT_SS_RBP .rax, .store .rbx MCONTEXT_SS_RBX .rax,
    .store .r12 (MCONTEXT_SS_R8 + 32) .rax, .store .r13 (MCONTEXT_SS_R8 + 40) .rax,
    .store .r14 (MCONTEXT_SS_R8 + 48) .rax, .store .r15 (MCONTEXT_SS_R8 + 56) .rax,
    .top .rcx, .store .rcx MCONTEXT_SS_RIP .rax, .lea 8 .rcx,
    .store .rcx MCONTEXT_SS_RSP .rax, .clear .rax, .ret]

def setcontextCode : List Instr :=
  [.load MCONTEXT_SS_RBX .rdi .rbx, .load (MCONTEXT_SS_R8 + 32) .rdi .r12,
    .load (MCONTEXT_SS_R8 + 40) .rdi .r13, .load (MCONTEXT_SS_R8 + 48) .rdi .r14,
    .load (MCONTEXT_SS_R8 + 56) .rdi .r15, .load MCONTEXT_SS_RSP .rdi .rsp,
    .load MCONTEXT_SS_RBP .rdi .rbp, .clear .rax, .jump MCONTEXT_SS_RIP .rdi]

def zzSetcontext (m : Machine) : Machine := run m setcontextCode

/-- The addresses of `_z_ctx_start` and of the instruction after its `callq *%rax`, and the
return address of `z_getcontext` in `z_swapcontext`. -/
class CodeAddresses where
  ctxStart : BitVec 64
  ctxStartReturn : BitVec 64
  swapReturn : BitVec 64
  start_ne_startReturn : ctxStart ≠ ctxStartReturn
  start_ne_swapReturn : ctxStart ≠ swapReturn
  startReturn_ne_swapReturn : ctxStartReturn ≠ swapReturn

export CodeAddresses (ctxStart ctxStartReturn swapReturn start_ne_startReturn start_ne_swapReturn
  startReturn_ne_swapReturn)

/-- As the concrete runs have them. -/
abbrev placed : CodeAddresses := ⟨0x1000, 0x1010, 0x2000, by decide, by decide, by decide⟩

/-- Up to the call of the start function. -/
def zCtxStart [CodeAddresses] (m : Machine) : Machine :=
  let m := run m [.pop .rax, .pop .rdi, .pop .rsi, .pop .rdx, .pop .rcx, .pop .r8, .pop .r9]
  { m.push ctxStartReturn with rip := m.reg .rax }

/-- From its return up to `call _z_ctx_done`. -/
def ctxStartTail (m : Machine) : Machine := run m [.mov .r12 .rsp, .top .rdi]

def UCF_SWAPPED : BitVec 32 := 0x80000000
def NCARGS : ℤ := 1048576
def MINSIGSTKSZ : BitVec 64 := 32768
def SS_ONSTACK : BitVec 32 := 1

/-- The answers of the kernel: the current signal stack, the limit of the stack, the mask that
is stored and the one that is in force after `z_sigprocmask`. -/
structure Answers where
  altstack : Option SignalStack
  rlimit : Option (BitVec 64)
  oldMask : BitVec 32
  newMask : BitVec 32

def savedStack (a : Answers) (c : Ucontext) (uctx sp : BitVec 64) : Ucontext :=
  let onstack := a.altstack.filter fun stack => stack.flags &&& SS_ONSTACK ≠ 0
  let stack := onstack.getD ⟨sp, c.stack.size, 0⟩
  let stacksize := (onstack.map SignalStack.size).getD 0
  let stacksize := if stacksize = 0 then a.rlimit.getD 0 else stacksize
  let c := { c with stack := { stack with size := stacksize } }
  let c :=
    if c.mcontext ≠ mcontextOf uctx then { c with mcontext := mcontextOf uctx, link := 0 } else c
  { c with sigmask := a.oldMask }

def zGetmcontext (a : Answers) (m : Machine) : Machine :=
  let uctx := m.reg .rdi
  (m.setCtx uctx (savedStack a (m.ctx uctx) uctx (m.reg .rsi))).setReg .rax (mcontextOf uctx)

def zGetcontext (a : Answers) (m : Machine) : Machine :=
  run (zGetmcontext a (run m getcontextHead)) getcontextTail

/-- `*argp++ = v` for each of the values. -/
def putWords (word : BitVec 64 → BitVec 64) (argp : BitVec 64) :
    List (BitVec 64) → (BitVec 64 → BitVec 64) × BitVec 64
  | [] => (word, argp)
  | v :: vs => putWords (Function.update word argp v) (argp + 8) vs

def Refused (c : Ucontext) (argc : ℤ) : Prop :=
  (c.stack.sp = 0 ∨ c.stack.size < MINSIGSTKSZ) ∨ argc < 0 ∨ argc > NCARGS

instance (c : Ucontext) (argc : ℤ) : Decidable (Refused c argc) :=
  inferInstanceAs (Decidable ((_ ∨ _) ∨ _ ∨ _))

def stackTop (c : Ucontext) (minargc : ℤ) : BitVec 64 :=
  let top := c.stack.sp + c.stack.size - 8
  let top := top - BitVec.ofInt 64 (8 * (1 + minargc))
  let top := top &&& ~~~15#64
  top - 16

/-- `ap` has the arguments after `argc`. -/
def zMakecontext [CodeAddresses] (m : Machine) (ucp start : BitVec 64) (argc : ℤ)
    (ap : ℕ → BitVec 64) :
    Machine :=
  if ucp = 0 then m
  else
    let c := m.ctx ucp
    if Refused c argc then m.setCtx ucp { c with mcsize := 0 }
    else
      let minargc := if argc < 6 then 6 else argc
      let top := stackTop c minargc
      let (word, argp) := putWords m.word top [ctxStart, start]
      let (word, argp) := putWords word argp ((List.range argc.toNat).map ap)
      let (word, argp) := putWords word argp (List.replicate (minargc - argc).toNat 0)
      let (word, argp) := putWords word argp (if minargc % 2 ≠ 0 then [0] else [])
      let m := { m with word := Function.update word argp ucp }
      let mc := contextAt c.mcontext
      let d := m.ctx mc
      m.setCtx mc { d with
        state := Function.update (Function.update (Function.update (Function.update d.state
          .r12 argp) .rbp 0) .rsp (top + 8)) .rip ctxStart }

def zSetcontext (a : Answers) (m : Machine) (uctx : BitVec 64) : Machine :=
  let c := m.ctx uctx
  let mctx := mcontextOf uctx
  let m := if mctx ≠ c.mcontext then m.setCtx uctx { c with mcontext := mctx } else m
  zzSetcontext ({ m with mask := a.newMask }.setReg .rdi mctx)

theorem fieldAt_offset {f : StateField} {offset : ℕ} (h : mcontextShape.offset (.ss f) = offset) :
    fieldAt offset = some f := by
  subst h
  cases f <;> decide

@[simp] theorem fieldAt_code :
    fieldAt MCONTEXT_SS_RBX = some .rbx ∧ fieldAt MCONTEXT_SS_RBP = some .rbp ∧
      fieldAt MCONTEXT_SS_RSP = some .rsp ∧ fieldAt (MCONTEXT_SS_R8 + 32) = some .r12 ∧
      fieldAt (MCONTEXT_SS_R8 + 40) = some .r13 ∧ fieldAt (MCONTEXT_SS_R8 + 48) = some .r14 ∧
      fieldAt (MCONTEXT_SS_R8 + 56) = some .r15 ∧ fieldAt MCONTEXT_SS_RIP = some .rip := by
  refine ⟨?_, ?_, ?_, ?_, ?_, ?_, ?_, ?_⟩ <;> exact fieldAt_offset (by decide)

@[simp] theorem contextAt_mcontextOf (uctx : BitVec 64) : contextAt (mcontextOf uctx) = uctx :=
  BitVec.add_sub_cancel _ _

structure Preserved where
  rbx : BitVec 64
  rbp : BitVec 64
  r12 : BitVec 64
  r13 : BitVec 64
  r14 : BitVec 64
  r15 : BitVec 64

def Machine.keep (m : Machine) (p : Preserved) : Machine :=
  { m with
    reg
      | .rbx => p.rbx
      | .rbp => p.rbp
      | .r12 => p.r12
      | .r13 => p.r13
      | .r14 => p.r14
      | .r15 => p.r15
      | r => m.reg r }

def Machine.preserved (m : Machine) : Preserved :=
  ⟨m.reg .rbx, m.reg .rbp, m.reg .r12, m.reg .r13, m.reg .r14, m.reg .r15⟩

def Ucontext.preserved (c : Ucontext) : Preserved :=
  ⟨c.state .rbx, c.state .rbp, c.state .r12, c.state .r13, c.state .r14, c.state .r15⟩

structure Resumed (m m' : Machine) (c : Ucontext) : Prop where
  rip : m'.rip = c.state .rip
  rsp : m'.reg .rsp = c.state .rsp
  preserved : m'.preserved = c.preserved
  rax : m'.reg .rax = 0
  word : m'.word = m.word

theorem zzSetcontext_resumed (m : Machine) {uctx : BitVec 64}
    (h : m.reg .rdi = mcontextOf uctx) :
    Resumed m (zzSetcontext m) (m.ctx uctx) ∧ (zzSetcontext m).ctx = m.ctx ∧
      (zzSetcontext m).mask = m.mask := by
  refine ⟨⟨?_, ?_, ?_, ?_, ?_⟩, ?_, ?_⟩
  all_goals
    simp [zzSetcontext, run, setcontextCode, exec, Machine.setReg, Machine.field, h,
      Function.update, Machine.preserved, Ucontext.preserved]

theorem zSetcontext_resumed (a : Answers) (m : Machine) (uctx : BitVec 64) :
    Resumed m (zSetcontext a m uctx) (m.ctx uctx) ∧ (zSetcontext a m uctx).mask = a.newMask ∧
      (zSetcontext a m uctx).ctx =
        Function.update m.ctx uctx { m.ctx uctx with mcontext := mcontextOf uctx } := by
  let entered : Machine :=
    { m with
      ctx := Function.update m.ctx uctx { m.ctx uctx with mcontext := mcontextOf uctx }
      mask := a.newMask
      reg := Function.update m.reg .rdi (mcontextOf uctx) }
  have hentered : zSetcontext a m uctx = zzSetcontext entered := by
    by_cases hsame : mcontextOf uctx ≠ (m.ctx uctx).mcontext
    · simp only [zSetcontext, if_pos hsame]
      rfl
    · have hctx : Function.update m.ctx uctx { m.ctx uctx with mcontext := mcontextOf uctx } =
          m.ctx := by
        rw [not_not.mp hsame]
        exact Function.update_eq_self _ _
      simp only [zSetcontext, if_neg hsame, entered, hctx]
      rfl
  have hrdi : entered.reg .rdi = mcontextOf uctx := Function.update_self Reg.rdi _ m.reg
  have hctx : entered.ctx uctx = { m.ctx uctx with mcontext := mcontextOf uctx } :=
    Function.update_self uctx _ m.ctx
  obtain ⟨hresumed, hkept, hmask⟩ := zzSetcontext_resumed entered hrdi
  rw [hctx] at hresumed
  rw [hentered]
  exact ⟨⟨hresumed.rip, hresumed.rsp, hresumed.preserved, hresumed.rax, hresumed.word⟩, hmask,
    hkept⟩

/-- What `z_getcontext` has left, called with its return address on the stack. -/
structure Saved (m m' : Machine) (uctx : BitVec 64) : Prop where
  rip : m'.rip = m.word (m.reg .rsp)
  rsp : m'.reg .rsp = m.reg .rsp + 8
  rax : m'.reg .rax = 0
  preserved : m'.preserved = m.preserved
  savedRip : (m'.ctx uctx).state .rip = m.word (m.reg .rsp)
  savedRsp : (m'.ctx uctx).state .rsp = m.reg .rsp + 8
  savedPreserved : (m'.ctx uctx).preserved = m.preserved
  onstack : (m'.ctx uctx).onstack = (m.ctx uctx).onstack
  mcontext : (m'.ctx uctx).mcontext = mcontextOf uctx
  word : m'.word = Function.update m.word (m.reg .rsp - 8) (m.reg .rbp)
  others : ∀ c, c ≠ uctx → m'.ctx c = m.ctx c
  mask : m'.mask = m.mask

theorem savedStack_onstack (a : Answers) (c : Ucontext) (uctx sp : BitVec 64) :
    (savedStack a c uctx sp).onstack = c.onstack ∧
      (savedStack a c uctx sp).mcontext = mcontextOf uctx := by
  simp only [savedStack]
  split
  · exact ⟨rfl, rfl⟩
  · next h => exact ⟨rfl, not_not.mp h⟩

theorem getcontextTail_saved {m : Machine} {uctx : BitVec 64}
    (h : m.reg .rax = mcontextOf uctx) :
    let sp := m.reg .rsp + 8
    let m' := run m getcontextTail
    m'.rip = m.word sp ∧ m'.reg .rsp = sp + 8 ∧ m'.reg .rax = 0 ∧ m'.word = m.word ∧
      m'.mask = m.mask ∧
      m'.preserved = { m.preserved with rbp := m.word (m.reg .rsp) } ∧
      m'.ctx = Function.update m.ctx uctx { m.ctx uctx with state := (m'.ctx uctx).state } ∧
      (m'.ctx uctx).state .rip = m.word sp ∧ (m'.ctx uctx).state .rsp = sp + 8 ∧
      (m'.ctx uctx).preserved = { m.preserved with rbp := m.word (m.reg .rsp) } := by
  intro sp m'
  refine ⟨?_, ?_, ?_, ?_, ?_, ?_, ?_, ?_, ?_, ?_⟩
  all_goals
    simp [m', sp, run, getcontextTail, exec, Machine.setReg, Machine.setField, Machine.setCtx, h,
      Machine.preserved, Ucontext.preserved]

theorem zGetcontext_saved (a : Answers) {m : Machine} {uctx : BitVec 64}
    (h : m.reg .rdi = uctx) : Saved m (zGetcontext a m) uctx := by
  subst h
  let sp := m.reg .rsp - 8
  let c := savedStack a (m.ctx (m.reg .rdi)) (m.reg .rdi) sp
  let entered : Machine := zGetmcontext a (run m getcontextHead)
  have hrax : entered.reg .rax = mcontextOf (m.reg .rdi) := by
    simp [entered, zGetmcontext, run, getcontextHead, exec, Machine.push, Machine.setReg,
      Machine.setWord, Machine.setCtx]
  have hrsp : entered.reg .rsp = sp := by
    simp [entered, sp, zGetmcontext, run, getcontextHead, exec, Machine.push, Machine.setReg,
      Machine.setWord, Machine.setCtx]
  have hword : entered.word = Function.update m.word sp (m.reg .rbp) := rfl
  have hctx : entered.ctx = Function.update m.ctx (m.reg .rdi) c := by
    simp [entered, c, sp, zGetmcontext, run, getcontextHead, exec, Machine.push, Machine.setReg,
      Machine.setWord, Machine.setCtx]
  have hkept : { entered.preserved with rbp := m.reg .rbp } = m.preserved := by
    simp [entered, zGetmcontext, run, getcontextHead, exec, Machine.push, Machine.setReg,
      Machine.setWord, Machine.setCtx, Machine.preserved]
  have hback : sp + 8 = m.reg .rsp := BitVec.sub_add_cancel _ _
  have htop : entered.word (m.reg .rsp) = m.word (m.reg .rsp) := by
    have hne : m.reg .rsp ≠ sp := by
      simp only [sp]
      bv_omega
    rw [hword, Function.update_of_ne hne]
  have hpopped : entered.word sp = m.reg .rbp := by
    rw [hword, Function.update_self]
  obtain ⟨hrip, hsp, hzero, hw, hmask, hpres, hctx', hsrip, hsrsp, hspres⟩ :=
    getcontextTail_saved hrax
  rw [hrsp, hback, htop] at hrip hsrip
  rw [hrsp, hback] at hsp hsrsp
  rw [hrsp, hpopped, hkept] at hpres hspres
  have hself := congrFun hctx' (m.reg .rdi)
  rw [Function.update_self, hctx, Function.update_self] at hself
  have honstack := savedStack_onstack a (m.ctx (m.reg .rdi)) (m.reg .rdi) sp
  refine ⟨hrip, hsp, hzero, hpres, hsrip, hsrsp, hspres, ?_, ?_, hw, fun d hd => ?_, hmask⟩
  · exact (congrArg Ucontext.onstack hself).trans honstack.1
  · exact (congrArg Ucontext.mcontext hself).trans honstack.2
  · refine (congrFun hctx' d).trans ?_
    rw [Function.update_of_ne hd, hctx, Function.update_of_ne hd]

end ContextMachine
