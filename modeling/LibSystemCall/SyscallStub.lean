import LibSystemCall.ContextStart

/-! # The entries into the kernel

`z_syscall_unix` goes through the indirect call, number 0 of its class, and leaves the arguments
where its caller has put them. `z_syscall_mach` and `zz_syscall` move them down by one. -/
namespace SyscallStub

open ContextStart (slot slot_add slot_zero)

inductive Reg where
  | rax | rdi | rsi | rdx | rcx | r8 | r9 | r10 | r11 | rbx | rbp | rsp | r12 | r13 | r14 | r15
  deriving DecidableEq

/-- `word` has the aligned words of the stack. -/
structure Machine where
  reg : Reg → BitVec 64
  carry : Bool
  word : BitVec 64 → BitVec 64

/-- Sources before destinations; `load` has an offset from `%rsp`, and `movl` clears the upper
half. -/
inductive Instr where
  | mov (src dst : Reg)
  | movl (value : BitVec 32) (dst : Reg)
  | load (offset : BitVec 64) (dst : Reg)
  | push (src : Reg)

def Machine.setReg (m : Machine) (r : Reg) (v : BitVec 64) : Machine :=
  { m with reg := Function.update m.reg r v }

def exec (m : Machine) : Instr → Machine
  | .mov src dst => m.setReg dst (m.reg src)
  | .movl value dst => m.setReg dst (value.setWidth 64)
  | .load offset dst => m.setReg dst (m.word (m.reg .rsp + offset))
  | .push src =>
    let sp := m.reg .rsp - 8
    { m with word := Function.update m.word sp (m.reg src) }.setReg .rsp sp

def run (m : Machine) (code : List Instr) : Machine := code.foldl exec m

/-! z_syscall.S and z_syscall.c, up to the instruction `syscall`. -/

def unixHead : List Instr := [.movl 0x2000000 .rax, .mov .rcx .r10]

def machHead : List Instr :=
  [.mov .rdi .rax, .mov .rsi .rdi, .mov .rdx .rsi, .mov .rcx .rdx, .mov .r8 .rcx, .mov .r9 .r8,
    .load 8 .r9, .mov .rcx .r10]

/-- The frame pointer is pushed at the entry of the C function. -/
def zzHead : List Instr :=
  [.push .rbp, .mov .rdi .rax, .mov .rsi .rdi, .mov .rdx .rsi, .mov .rcx .rdx, .mov .r8 .rcx,
    .mov .r9 .r8, .load 16 .r9, .mov .rcx .r10]

/-- The kernel comes back from `syscall` with a result and the carry, and without `%rcx` and
`%r11`. -/
structure Answer where
  rax : BitVec 64
  rdx : BitVec 64
  rcx : BitVec 64
  r11 : BitVec 64
  carry : Bool

def answered (m : Machine) (a : Answer) : Machine :=
  { (((m.setReg .rax a.rax).setReg .rdx a.rdx).setReg .rcx a.rcx).setReg .r11 a.r11 with
    carry := a.carry }

/-- A return, or a jump to `z_cerror`. -/
inductive Leave where
  | ret (m : Machine)
  | cerror (m : Machine)

def unixTail (m : Machine) : Leave :=
  if m.carry then .cerror (m.setReg .rdi (m.reg .rax)) else .ret m

def zSyscallUnix (a : Answer) (m : Machine) : Leave := unixTail (answered (run m unixHead) a)

def zSyscallMach (a : Answer) (m : Machine) : Machine := answered (run m machHead) a

/-- The value that `zz_syscall` returns; `ret` is a `z_int32`. -/
def zzSyscall (a : Answer) (m : Machine) : BitVec 64 :=
  (((answered (run m zzHead) a).reg .rax).setWidth 32).signExtend 64

/-- Argument `i` of a call that has its first arguments in `regs` and the others on the stack,
above the return address. -/
def passed (regs : List Reg) (m : Machine) (i : ℕ) : BitVec 64 :=
  match regs[i]? with
  | some r => m.reg r
  | none => m.word (slot (m.reg .rsp) (i - regs.length + 1))

/-- Of a C function: argument 0 of a stub is the number of the call. -/
def cArgument : Machine → ℕ → BitVec 64 := passed [.rdi, .rsi, .rdx, .rcx, .r8, .r9]

def SYSCALL_CLASS_SHIFT : ℕ := 24
def SYSCALL_CLASS_UNIX : BitVec 64 := 2
def SYSCALL_CLASS_MACH : BitVec 8 := 1
def SYS_syscall : BitVec 64 := 0

def coded (callClass : BitVec 8) (x : BitVec 24) : BitVec 64 :=
  (callClass.setWidth 64 <<< SYSCALL_CLASS_SHIFT) ||| (0xffffff &&& x.setWidth 64)

def SYSCALL_MACH (x : BitVec 24) : BitVec 64 := coded SYSCALL_CLASS_MACH x

/-- `callClass` and `number` are the two parts of `%rax`. -/
def callClass (rax : BitVec 64) : BitVec 64 := (rax >>> SYSCALL_CLASS_SHIFT) &&& 0xff
def number (rax : BitVec 64) : BitVec 64 := rax &&& 0xffffff

structure Request where
  callClass : BitVec 64
  number : BitVec 64
  argument : ℕ → BitVec 64

/-- How the kernel of the machine takes a call from the registers: an indirect call has its
number in the first of them. -/
structure Convention (receive : Machine → Request) : Prop where
  direct : ∀ m, callClass (m.reg .rax) ≠ SYSCALL_CLASS_UNIX ∨ number (m.reg .rax) ≠ SYS_syscall →
    receive m = ⟨callClass (m.reg .rax), number (m.reg .rax),
      passed [.rdi, .rsi, .rdx, .r10, .r8, .r9] m⟩
  indirect : ∀ m, callClass (m.reg .rax) = SYSCALL_CLASS_UNIX →
    number (m.reg .rax) = SYS_syscall → (m.reg .rdi).toNat < 2 ^ 16 →
    receive m = ⟨SYSCALL_CLASS_UNIX, m.reg .rdi, passed [.rsi, .rdx, .r10, .r8, .r9] m⟩

variable (m : Machine)

theorem unixHead_kept {r : Reg} (hrax : r ≠ .rax) (hr10 : r ≠ .r10) :
    (run m unixHead).reg r = m.reg r := by
  simp [run, unixHead, exec, Machine.setReg, hrax, hr10]

/-- The arguments of the indirect call are those of the C function behind the number, in the
registers and on the stack. -/
theorem unixHead_passed (i : ℕ) :
    passed [.rsi, .rdx, .r10, .r8, .r9] (run m unixHead) i = cArgument m (i + 1) := by
  match i with
  | 0 | 1 | 2 | 3 | 4 =>
    simp [passed, cArgument, run, unixHead, exec, Machine.setReg]
  | i + 5 =>
    simp [passed, cArgument, run, unixHead, exec, Machine.setReg]

/-- Six arguments move down by one; from the seventh on the kernel reads the slots of the stack,
where nothing has moved. -/
theorem machHead_passed (i : ℕ) :
    passed [.rdi, .rsi, .rdx, .r10, .r8, .r9] (run m machHead) i =
      cArgument m (if i < 6 then i + 1 else i) := by
  match i with
  | 0 | 1 | 2 | 3 | 4 =>
    simp [passed, cArgument, run, machHead, exec, Machine.setReg]
  | 5 =>
    simp [passed, cArgument, run, machHead, exec, Machine.setReg, slot]
  | i + 6 =>
    have hlarge : ¬i + 6 < 6 := by omega
    simp [passed, cArgument, run, machHead, exec, Machine.setReg, hlarge]

theorem zzHead_passed {i : ℕ} (hi : i < 6) :
    passed [.rdi, .rsi, .rdx, .r10, .r8, .r9] (run m zzHead) i = cArgument m (i + 1) := by
  match i with
  | 0 | 1 | 2 | 3 | 4 =>
    simp [passed, cArgument, run, zzHead, exec, Machine.setReg]
  | 5 =>
    have hup : m.reg .rsp - 8#64 + 16#64 = m.reg .rsp + 8#64 := by bv_omega
    have hne : m.reg .rsp + 8#64 ≠ m.reg .rsp - 8#64 := by bv_omega
    simp [passed, cArgument, run, zzHead, exec, Machine.setReg, slot, hup,
      Function.update_of_ne hne]
  | i + 6 => omega

theorem unixHead_rax : (run m unixHead).reg .rax = 0x2000000 := by
  simp [run, unixHead, exec, Machine.setReg]

theorem machHead_rax : (run m machHead).reg .rax = cArgument m 0 := by
  simp [cArgument, passed, run, machHead, exec, Machine.setReg]

theorem zzHead_rax : (run m zzHead).reg .rax = cArgument m 0 := by
  simp [cArgument, passed, run, zzHead, exec, Machine.setReg]

variable {m}

theorem coded_toNat (cls : BitVec 8) (x : BitVec 24) :
    (coded cls x).toNat = cls.toNat * 2 ^ 24 + x.toNat := by
  have hcls := cls.isLt
  have hx := x.isLt
  have hmask : (0xffffff &&& x.setWidth 64 : BitVec 64).toNat = x.toNat := by
    rw [BitVec.toNat_and, Nat.and_comm, BitVec.toNat_setWidth, Nat.mod_eq_of_lt (by omega)]
    exact (Nat.and_two_pow_sub_one_eq_mod x.toNat 24).trans (Nat.mod_eq_of_lt hx)
  have hshift : (cls.setWidth 64 <<< SYSCALL_CLASS_SHIFT).toNat = cls.toNat <<< 24 := by
    rw [SYSCALL_CLASS_SHIFT, BitVec.toNat_shiftLeft, BitVec.toNat_setWidth, Nat.shiftLeft_eq,
      Nat.shiftLeft_eq]
    omega
  rw [coded, BitVec.toNat_or, hmask, hshift, ← Nat.shiftLeft_add_eq_or_of_lt hx,
    Nat.shiftLeft_eq]

theorem coded_parts (cls : BitVec 8) (x : BitVec 24) :
    callClass (coded cls x) = cls.setWidth 64 ∧ number (coded cls x) = x.setWidth 64 := by
  have hcls := cls.isLt
  have hx := x.isLt
  constructor
  · apply BitVec.eq_of_toNat_eq
    rw [callClass, BitVec.toNat_and, BitVec.toNat_ushiftRight, coded_toNat,
      Nat.shiftRight_eq_div_pow, BitVec.toNat_setWidth, SYSCALL_CLASS_SHIFT]
    refine (Nat.and_two_pow_sub_one_eq_mod _ 8).trans ?_
    omega
  · apply BitVec.eq_of_toNat_eq
    rw [number, BitVec.toNat_and, coded_toNat, BitVec.toNat_setWidth]
    refine (Nat.and_two_pow_sub_one_eq_mod _ 24).trans ?_
    omega

theorem Convention.coded {receive : Machine → Request} (h : Convention receive)
    {cls : BitVec 8} {x : BitVec 24} (hrax : m.reg .rax = coded cls x) (hdirect : cls ≠ 2 ∨ x ≠ 0) :
    receive m =
      ⟨cls.setWidth 64, x.setWidth 64, passed [.rdi, .rsi, .rdx, .r10, .r8, .r9] m⟩ := by
  obtain ⟨hclass, hnumber⟩ := coded_parts cls x
  rw [h.direct m, hrax, hclass, hnumber]
  rw [hrax, hclass, hnumber]
  refine hdirect.imp (fun hcls heq => hcls ?_) fun hx heq => hx ?_
  · have hback := congrArg (BitVec.setWidth 8) heq
    rwa [BitVec.setWidth_setWidth_of_le _ (by decide), BitVec.setWidth_eq] at hback
  · have hback := congrArg (BitVec.setWidth 24) heq
    rwa [BitVec.setWidth_setWidth_of_le _ (by decide), BitVec.setWidth_eq] at hback

theorem answered_kept (m : Machine) (a : Answer) {r : Reg}
    (hr : r ∉ [Reg.rax, .rdx, .rcx, .r11]) : (answered m a).reg r = m.reg r := by
  simp only [List.mem_cons, List.not_mem_nil, or_false, not_or] at hr
  simp [answered, Machine.setReg, hr]

def calleeSaved : List Reg := [.rbx, .rbp, .rsp, .r12, .r13, .r14, .r15]

theorem unix_kept (m : Machine) (a : Answer) {r : Reg} (hr : r ∈ calleeSaved) :
    (answered (run m unixHead) a).reg r = m.reg r := by
  have hapart : ∀ r ∈ calleeSaved, r ∉ [Reg.rax, .rdx, .rcx, .r11] ∧ r ≠ .rax ∧ r ≠ .r10 := by
    decide
  obtain ⟨hanswered, hrax, hr10⟩ := hapart r hr
  rw [answered_kept _ _ hanswered, unixHead_kept _ hrax hr10]

theorem machHead_kept {r : Reg} (hr : r ∈ calleeSaved) : (run m machHead).reg r = m.reg r := by
  simp only [calleeSaved, List.mem_cons, List.not_mem_nil, or_false] at hr
  rcases hr with rfl | rfl | rfl | rfl | rfl | rfl | rfl <;>
    simp [run, machHead, exec, Machine.setReg]

theorem zSyscallMach_returns (m : Machine) (a : Answer) :
    (zSyscallMach a m).reg .rax = a.rax ∧ (zSyscallMach a m).word = m.word ∧
      ∀ r ∈ calleeSaved, (zSyscallMach a m).reg r = m.reg r := by
  have hapart : ∀ r ∈ calleeSaved, r ∉ [Reg.rax, .rdx, .rcx, .r11] := by decide
  refine ⟨?_, rfl, fun r hr => ?_⟩
  · simp [zSyscallMach, answered, Machine.setReg]
  · exact (answered_kept _ a (hapart r hr)).trans (machHead_kept hr)

/-- The carry is not looked at, so an error comes back as a result does. -/
theorem zzSyscall_returns (m : Machine) (a : Answer) :
    zzSyscall a m = (a.rax.setWidth 32).signExtend 64 := by
  simp [zzSyscall, answered, Machine.setReg]

theorem zSyscallUnix_success {a : Answer} (ha : a.carry = false) :
    ∃ m', zSyscallUnix a m = .ret m' ∧ m'.reg .rax = a.rax ∧ m'.word = m.word ∧
      ∀ r ∈ calleeSaved, m'.reg r = m.reg r := by
  refine ⟨answered (run m unixHead) a, ?_, ?_, rfl, fun r hr => ?_⟩
  · rw [zSyscallUnix, unixTail, answered, if_neg (by simpa using ha)]
  · simp [answered, Machine.setReg]
  · exact unix_kept m a hr

theorem zSyscallUnix_failure {a : Answer} (ha : a.carry = true) :
    ∃ m', zSyscallUnix a m = .cerror m' ∧ m'.reg .rdi = a.rax ∧ m'.word = m.word ∧
      ∀ r ∈ calleeSaved, m'.reg r = m.reg r := by
  refine ⟨(answered (run m unixHead) a).setReg .rdi a.rax, ?_, ?_, rfl, fun r hr => ?_⟩
  · have hrax : (answered (run m unixHead) a).reg .rax = a.rax := by
      simp [answered, Machine.setReg]
    have hcarry : (answered (run m unixHead) a).carry = true := ha
    rw [zSyscallUnix, unixTail, if_pos hcarry, hrax]
  · simp [Machine.setReg]
  · have hrdi : r ≠ .rdi := by
      rintro rfl
      exact absurd hr (by decide)
    exact (Function.update_of_ne hrdi _ _).trans (unix_kept m a hr)

theorem indirect_class : callClass 0x2000000 = SYSCALL_CLASS_UNIX ∧
    number 0x2000000 = SYS_syscall := by
  decide

/-- `z_syscall_unix` asks for the call that its caller has named, with all of its arguments, and
comes back with the result, or goes to `z_cerror` with the error, with the registers and the
stack of its caller. `z_syscall_mach` delivers six arguments, and for a seventh the sixth again,
and returns the result. `zz_syscall` delivers six, unless it is asked for the indirect call, and
returns the low half of the result. -/
theorem stubs_deliver {receive : Machine → Request} (h : Convention receive) (m : Machine) :
    ((cArgument m 0).toNat < 2 ^ 16 → receive (run m unixHead) =
      ⟨SYSCALL_CLASS_UNIX, cArgument m 0, fun i => cArgument m (i + 1)⟩) ∧
    (∀ a : Answer, ∃ m', zSyscallUnix a m = (if a.carry then .cerror m' else .ret m') ∧
      m'.reg (if a.carry then .rdi else .rax) = a.rax ∧ m'.word = m.word ∧
      ∀ r ∈ calleeSaved, m'.reg r = m.reg r) ∧
    (∀ x, cArgument m 0 = SYSCALL_MACH x → receive (run m machHead) =
      ⟨1, x.setWidth 64, fun i => cArgument m (if i < 6 then i + 1 else i)⟩) ∧
    (∀ cls x, cArgument m 0 = coded cls x → cls ≠ 2 ∨ x ≠ 0 →
      (receive (run m zzHead)).callClass = cls.setWidth 64 ∧
        (receive (run m zzHead)).number = x.setWidth 64 ∧
        ∀ i < 6, (receive (run m zzHead)).argument i = cArgument m (i + 1)) ∧
    ∀ a : Answer, ((zSyscallMach a m).reg .rax = a.rax ∧ (zSyscallMach a m).word = m.word ∧
        ∀ r ∈ calleeSaved, (zSyscallMach a m).reg r = m.reg r) ∧
      zzSyscall a m = (a.rax.setWidth 32).signExtend 64 := by
  refine ⟨fun hn => ?_, fun a => ?_, fun x hx => ?_, fun cls x hx hdirect => ?_, fun a => ?_⟩
  · obtain ⟨hclass, hnumber⟩ := indirect_class
    have hrdi : (run m unixHead).reg .rdi = cArgument m 0 :=
      unixHead_kept m (by decide) (by decide)
    rw [h.indirect _ (by rw [unixHead_rax, hclass]) (by rw [unixHead_rax, hnumber])
      (by rwa [hrdi]), hrdi]
    congr 1
    funext i
    exact unixHead_passed m i
  · cases ha : a.carry with
    | false => simpa using zSyscallUnix_success ha
    | true => simpa using zSyscallUnix_failure ha
  · rw [h.coded ((machHead_rax m).trans hx) (.inl (by decide))]
    congr 1
    funext i
    exact machHead_passed m i
  · rw [h.coded ((zzHead_rax m).trans hx) hdirect]
    exact ⟨rfl, rfl, fun i hi => zzHead_passed m hi⟩
  · exact ⟨zSyscallMach_returns m a, zzSyscall_returns m a⟩

def received (m : Machine) : Request :=
  if callClass (m.reg .rax) = SYSCALL_CLASS_UNIX ∧ number (m.reg .rax) = SYS_syscall then
    ⟨SYSCALL_CLASS_UNIX, m.reg .rdi, passed [.rsi, .rdx, .r10, .r8, .r9] m⟩
  else
    ⟨callClass (m.reg .rax), number (m.reg .rax), passed [.rdi, .rsi, .rdx, .r10, .r8, .r9] m⟩

theorem received_convention : Convention received where
  direct _ h := if_neg (not_and_or.mpr h)
  indirect _ hclass hnumber _ := if_pos ⟨hclass, hnumber⟩

/-- `z_mach_msg` with the arguments 1 to 7, called with the registers 31, 1, 2, 3, 4 and 5. -/
def machMsg : Machine where
  reg
    | .rdi => SYSCALL_MACH 31
    | .rsi => 1
    | .rdx => 2
    | .rcx => 3
    | .r8 => 4
    | .r9 => 5
    | .rsp => 0x7000
    | _ => 0
  carry := false
  word p := if p = 0x7008 then 6 else 7

theorem stubs_deliver_mach_msg :
    (received (run machMsg machHead)).callClass = 1 ∧
      (received (run machMsg machHead)).number = 31 ∧
      (List.range 7).map (received (run machMsg machHead)).argument = [1, 2, 3, 4, 5, 6, 6] := by
  have hrequest := (stubs_deliver received_convention machMsg).2.2.1 31 rfl
  rw [hrequest]
  exact ⟨rfl, rfl, by decide⟩

end SyscallStub
