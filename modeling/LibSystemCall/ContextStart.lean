import LibSystemCall.ContextMachine
import LibSystemCall.WordMask
import Mathlib.Data.List.Range

/-! # The stack of a made context

What `z_makecontext` puts on a stack, and how `_z_ctx_start` takes it off again. -/
namespace ContextStart

open ContextMachine

def slot (p : BitVec 64) (k : ℕ) : BitVec 64 := p + BitVec.ofNat 64 (8 * k)

theorem slot_zero (p : BitVec 64) : slot p 0 = p := BitVec.add_zero p

theorem slot_add (p : BitVec 64) (j k : ℕ) : slot (slot p j) k = slot p (j + k) := by
  unfold slot
  rw [BitVec.add_assoc, ← BitVec.ofNat_add, Nat.mul_add]

theorem slot_inj {p : BitVec 64} {j k : ℕ} (hj : j < 2 ^ 60) (hk : k < 2 ^ 60)
    (h : slot p j = slot p k) : j = k := by
  have hoffset := (BitVec.add_right_inj p).mp h
  have hnat := congrArg BitVec.toNat hoffset
  rw [BitVec.toNat_ofNat, BitVec.toNat_ofNat] at hnat
  omega

theorem putWords_append (word : BitVec 64 → BitVec 64) (argp : BitVec 64)
    (xs ys : List (BitVec 64)) : putWords word argp (xs ++ ys) =
      putWords (putWords word argp xs).1 (putWords word argp xs).2 ys := by
  induction xs generalizing word argp with
  | nil => rfl
  | cons x xs ih => exact ih _ _

theorem putWords_argp (word : BitVec 64 → BitVec 64) (argp : BitVec 64)
    (vs : List (BitVec 64)) : (putWords word argp vs).2 = slot argp vs.length := by
  induction vs generalizing word argp with
  | nil => exact (slot_zero argp).symm
  | cons v vs ih =>
    have hnext : argp + 8 = slot argp 1 := rfl
    rw [putWords, ih, hnext, slot_add, List.length_cons, Nat.add_comm]

theorem putWords_outside {word : BitVec 64 → BitVec 64} {argp p : BitVec 64}
    {vs : List (BitVec 64)} (h : ∀ k < vs.length, p ≠ slot argp k) :
    (putWords word argp vs).1 p = word p := by
  induction vs generalizing word argp with
  | nil => rfl
  | cons v vs ih =>
    have hfirst : p ≠ argp := by
      rw [← slot_zero argp]
      exact h 0 (Nat.succ_pos _)
    rw [putWords, ih, Function.update_of_ne hfirst]
    intro k hk
    have hnext : argp + 8 = slot argp 1 := rfl
    rw [hnext, slot_add, Nat.add_comm]
    exact h (k + 1) (Nat.succ_lt_succ hk)

theorem putWords_slot {word : BitVec 64 → BitVec 64} {argp : BitVec 64} {vs : List (BitVec 64)}
    (hsmall : vs.length < 2 ^ 60) {k : ℕ} (hk : k < vs.length) :
    (putWords word argp vs).1 (slot argp k) = vs[k] := by
  induction vs generalizing word argp k with
  | nil => cases hk
  | cons v vs ih =>
    have hnext : argp + 8 = slot argp 1 := rfl
    have hlen : vs.length < 2 ^ 60 := Nat.lt_of_succ_lt hsmall
    rw [putWords, hnext]
    cases k with
    | zero =>
      rw [putWords_outside, slot_zero, Function.update_self]
      · rfl
      · intro j hj heq
        rw [slot_add] at heq
        have := slot_inj (by omega) (by omega) heq
        omega
    | succ k =>
      have hk' : k < vs.length := Nat.lt_of_succ_lt_succ hk
      have hslot : slot argp (k + 1) = slot (slot argp 1) k := by
        rw [slot_add, Nat.add_comm]
      rw [hslot, ih hlen hk']
      rfl

def argument (args : List (BitVec 64)) (i : ℕ) : BitVec 64 := args.getD i 0

theorem map_argument (args : List (BitVec 64)) :
    (List.range args.length).map (argument args) = args := by
  refine List.ext_getElem (by simp) fun i hi hlt => ?_
  rw [List.getElem_map, List.getElem_range, argument, List.getD_eq_getElem?_getD,
    List.getElem?_eq_getElem hlt]
  rfl

/-- The slot of `start`'s return address and, above the words, that of the context. -/
def startTop (c : Ucontext) (args : List (BitVec 64)) : BitVec 64 :=
  stackTop c (max args.length 6 : ℕ)

def startBase (c : Ucontext) (args : List (BitVec 64)) : BitVec 64 :=
  slot (startTop c args) (2 + max args.length 6 + max args.length 6 % 2)

theorem align_down (x : BitVec 64) : (x &&& ~~~15#64).toNat = x.toNat - x.toNat % 16 :=
  WordMask.toNat_clear (k := 4) (by decide) x

theorem slot_even {p : BitVec 64} (hp : p.toNat % 16 = 0) {k : ℕ} (hk : k % 2 = 0) :
    (slot p k).toNat % 16 = 0 := by
  rw [slot, BitVec.toNat_add, BitVec.toNat_ofNat]
  omega

theorem startTop_aligned (c : Ucontext) (args : List (BitVec 64)) :
    (startTop c args).toNat % 16 = 0 := by
  have haligned := align_down
    (c.stack.sp + c.stack.size - 8 - BitVec.ofInt 64 (8 * (1 + ((max args.length 6 : ℕ) : ℤ))))
  rw [startTop, stackTop]
  bv_omega

theorem startBase_aligned (c : Ucontext) (args : List (BitVec 64)) :
    (startBase c args).toNat % 16 = 0 := by
  refine slot_even (startTop_aligned c args) ?_
  omega

theorem slots_inside {c : Ucontext} {args : List (BitVec 64)}
    (hend : c.stack.sp.toNat + c.stack.size.toNat ≤ 2 ^ 64)
    (hroom : 8 * max args.length 6 + 47 ≤ c.stack.size.toNat) {k : ℕ}
    (hk : k ≤ 2 + max args.length 6 + max args.length 6 % 2) :
    c.stack.sp.toNat ≤ (slot (startTop c args) k).toNat ∧
      (slot (startTop c args) k).toNat + 8 ≤ c.stack.sp.toNat + c.stack.size.toNat := by
  have hleast : 6 ≤ max args.length 6 := le_max_right _ _
  generalize hn : max args.length 6 = n at *
  have hlt := c.stack.size.isLt
  have hbelow : (BitVec.ofInt 64 (8 * (1 + (n : ℤ)))).toNat = 8 * (1 + n) := by
    have hcast : 8 * (1 + (n : ℤ)) = ((8 * (1 + n) : ℕ) : ℤ) := by omega
    rw [hcast, BitVec.ofInt_natCast, BitVec.toNat_ofNat]
    omega
  let low := c.stack.sp + c.stack.size - 8 - BitVec.ofInt 64 (8 * (1 + (n : ℤ)))
  have hlow : low.toNat = c.stack.sp.toNat + c.stack.size.toNat - 16 - 8 * n := by
    simp only [low]
    bv_omega
  have hdown := align_down low
  rw [hlow] at hdown
  have htop : (startTop c args).toNat = (low &&& ~~~15#64).toNat - 16 := by
    simp only [startTop, stackTop, hn]
    change ((low &&& ~~~15#64) - 16).toNat = _
    bv_omega
  have hslot : (slot (startTop c args) k).toNat = (startTop c args).toNat + 8 * k := by
    rw [slot, BitVec.toNat_add, BitVec.toNat_ofNat]
    omega
  omega

theorem accepted {c : Ucontext} {argc : ℕ} (hsp : c.stack.sp ≠ 0)
    (hsize : MINSIGSTKSZ ≤ c.stack.size) (hargc : (argc : ℤ) ≤ NCARGS) : ¬Refused c argc := by
  rintro ((h | h) | h | h)
  · exact hsp h
  · exact absurd hsize (BitVec.not_le.mpr h)
  · omega
  · omega

theorem run_pops (m : Machine) {regs : List Reg} (hnodup : regs.Nodup) (hrsp : .rsp ∉ regs) :
    let m' := run m (regs.map .pop)
    m'.reg .rsp = slot (m.reg .rsp) regs.length ∧ m'.word = m.word ∧
      (∀ r ∉ regs, r ≠ .rsp → m'.reg r = m.reg r) ∧
      ∀ i (h : i < regs.length), m'.reg regs[i] = m.word (slot (m.reg .rsp) i) := by
  induction regs generalizing m with
  | nil =>
    exact ⟨(slot_zero _).symm, rfl, fun _ _ _ => rfl, fun i h => absurd h (Nat.not_lt_zero i)⟩
  | cons r rs ih =>
    intro m'
    let popped := exec m (.pop r)
    have hne : .rsp ≠ r := fun h => hrsp (h ▸ List.mem_cons_self)
    have hsp : popped.reg .rsp = slot (m.reg .rsp) 1 := by
      simp [popped, exec, Machine.setReg, hne, slot]
    have hr : popped.reg r = m.word (m.reg .rsp) := Function.update_self _ _ _
    have hrest := fun h => hrsp (List.mem_cons_of_mem r h)
    obtain ⟨hsp', hword, hkept, hpopped⟩ := ih popped hnodup.tail hrest
    rw [hsp] at hsp' hpopped
    refine ⟨?_, hword, fun s hs hsrsp => ?_, fun i hi => ?_⟩
    · rw [List.length_cons, Nat.add_comm, ← slot_add]
      exact hsp'
    · have hs' : s ≠ r ∧ s ∉ rs := not_or.mp fun h => hs (List.mem_cons.mpr h)
      refine (hkept s hs'.2 hsrsp).trans ?_
      simp [popped, exec, Machine.setReg, hs'.1, hsrsp]
    · cases i with
      | zero =>
        rw [slot_zero]
        exact (hkept r (List.nodup_cons.mp hnodup).1 hne.symm).trans hr
      | succ i =>
        have hslot : slot (m.reg .rsp) (i + 1) = slot (slot (m.reg .rsp) 1) i := by
          rw [slot_add, Nat.add_comm]
        rw [hslot]
        exact hpopped i (Nat.lt_of_succ_lt_succ hi)

def parameterRegs : List Reg := [.rdi, .rsi, .rdx, .rcx, .r8, .r9]

theorem push_reg (m : Machine) (v : BitVec 64) :
    (m.push v).reg = Function.update m.reg .rsp (m.reg .rsp - 8) := rfl

theorem push_word (m : Machine) (v : BitVec 64) :
    (m.push v).word = Function.update m.word (m.reg .rsp - 8) v := rfl

theorem ctxStartTail_done (m : Machine) :
    (ctxStartTail m).reg .rsp = m.reg .r12 ∧ (ctxStartTail m).reg .rdi = m.word (m.reg .r12) := by
  simp [ctxStartTail, run, exec, Machine.setReg]

section

variable [CodeAddresses]

def stackWords (start : BitVec 64) (args : List (BitVec 64)) : List (BitVec 64) :=
  [ctxStart, start] ++ args ++ List.replicate (6 - args.length) 0 ++
    if max args.length 6 % 2 = 1 then [0] else []

theorem stackWords_length (start : BitVec 64) (args : List (BitVec 64)) :
    (stackWords start args).length = 2 + max args.length 6 + max args.length 6 % 2 := by
  have hpad : (if max args.length 6 % 2 = 1 then [(0 : BitVec 64)] else []).length =
      max args.length 6 % 2 := by
    split
    · next h => rw [h]; rfl
    · next h =>
      have := Nat.mod_two_eq_zero_or_one (max args.length 6)
      rw [this.resolve_right h]
      rfl
  rw [stackWords, List.length_append, hpad]
  simp only [List.length_append, List.length_cons, List.length_nil, List.length_replicate]
  omega

theorem stackWords_argument (start : BitVec 64) (args : List (BitVec 64)) {i : ℕ}
    (hi : i < max args.length 6) : (stackWords start args)[2 + i]? = some (argument args i) := by
  unfold stackWords argument
  rw [List.append_assoc, List.append_assoc]
  rw [List.getElem?_append_right (Nat.le_add_right 2 i)]
  change (args ++ (List.replicate (6 - args.length) 0 ++ _))[2 + i - 2]? = _
  rw [Nat.add_sub_cancel_left]
  by_cases hlt : i < args.length
  · rw [List.getElem?_append_left hlt, List.getD_eq_getElem?_getD, List.getElem?_eq_getElem hlt]
    rfl
  · have hpad : i - args.length < 6 - args.length := by omega
    rw [List.getElem?_append_right (Nat.le_of_not_lt hlt),
      List.getElem?_append_left (by simpa using hpad), List.getElem?_replicate, if_pos hpad,
      List.getD_eq_getElem?_getD, List.getElem?_eq_none (Nat.le_of_not_lt hlt)]
    rfl

theorem putWords_start (word : BitVec 64 → BitVec 64) (top start : BitVec 64)
    (args : List (BitVec 64)) :
    let n : ℤ := args.length
    let minargc : ℤ := if n < 6 then 6 else n
    let first := putWords word top [ctxStart, start]
    let second := putWords first.1 first.2 ((List.range n.toNat).map (argument args))
    let third := putWords second.1 second.2 (List.replicate (minargc - n).toNat 0)
    putWords third.1 third.2 (if minargc % 2 ≠ 0 then [0] else []) =
      putWords word top (stackWords start args) := by
  intro n minargc first second third
  have hmin : minargc = (max args.length 6 : ℕ) := by
    simp only [minargc, n]
    split <;> omega
  have hzeros : (minargc - n).toNat = 6 - args.length := by
    rw [hmin]
    omega
  have hpad : (if minargc % 2 ≠ 0 then [(0 : BitVec 64)] else []) =
      if max args.length 6 % 2 = 1 then [0] else [] := by
    refine if_congr ?_ rfl rfl
    rw [hmin]
    omega
  have hargs : (List.range n.toNat).map (argument args) = args := map_argument args
  rw [stackWords, putWords_append, putWords_append, putWords_append, hpad]
  simp only [third, second, first, hzeros, hargs]

theorem zMakecontext_accepted (m : Machine) {ucp : BitVec 64} (start : BitVec 64)
    (args : List (BitVec 64)) (hucp : ucp ≠ 0) (hown : (m.ctx ucp).mcontext = mcontextOf ucp)
    (haccepted : ¬Refused (m.ctx ucp) args.length) :
    let c := m.ctx ucp
    zMakecontext m ucp start args.length (argument args) =
      { m with
        word := Function.update (putWords m.word (startTop c args) (stackWords start args)).1
          (startBase c args) ucp
        ctx := Function.update m.ctx ucp { c with
          state := Function.update (Function.update (Function.update (Function.update c.state
            .r12 (startBase c args)) .rbp 0) .rsp (slot (startTop c args) 1)) .rip ctxStart } } := by
  intro c
  have hmin : (if (args.length : ℤ) < 6 then 6 else (args.length : ℤ)) =
      (max args.length 6 : ℕ) := by
    split <;> omega
  have htop : stackTop c (if (args.length : ℤ) < 6 then 6 else (args.length : ℤ)) =
      startTop c args := by
    rw [hmin, startTop]
  have hput := putWords_start m.word (startTop c args) start args
  have hargp := putWords_argp m.word (startTop c args) (stackWords start args)
  rw [stackWords_length] at hargp
  simp only at hput
  simp only [zMakecontext, if_neg hucp, if_neg haccepted, Machine.setCtx, hown,
    contextAt_mcontextOf]
  rw [htop, hput, hargp, ← hown]
  rfl

theorem zCtxStart_popped (m : Machine) :
    let m' := zCtxStart m
    let sp := m.reg .rsp
    m'.rip = m.word sp ∧ m'.reg .rsp = slot sp 6 ∧ m'.reg .r12 = m.reg .r12 ∧
      (∀ i (h : i < parameterRegs.length), m'.reg parameterRegs[i] = m.word (slot sp (i + 1))) ∧
      m'.word = Function.update m.word (slot sp 6) ctxStartReturn := by
  intro m' sp
  obtain ⟨hsp, hword, hkept, hpopped⟩ :=
    run_pops m (show (.rax :: parameterRegs).Nodup by decide) (by decide)
  have hback : slot sp 7 - 8 = slot sp 6 := by
    simp only [slot]
    bv_omega
  have hpushed : m' = { (run m ((.rax :: parameterRegs).map .pop)).push ctxStartReturn with
      rip := (run m ((.rax :: parameterRegs).map .pop)).reg .rax } := rfl
  generalize run m ((.rax :: parameterRegs).map .pop) = popped at *
  have hdown : popped.reg .rsp - 8 = slot sp 6 := by
    rw [← hback]
    exact congrArg (· - 8) hsp
  have hreg : m'.reg = Function.update popped.reg .rsp (slot sp 6) := by
    rw [hpushed, ← hdown]
    exact push_reg _ _
  refine ⟨?_, ?_, ?_, fun i hi => ?_, ?_⟩
  · rw [hpushed, ← slot_zero sp]
    exact hpopped 0 (Nat.succ_pos _)
  · rw [hreg, Function.update_self]
  · rw [hreg, Function.update_of_ne (by decide)]
    exact hkept .r12 (by decide) (by decide)
  · have hne : parameterRegs[i] ≠ .rsp := by
      intro h
      exact absurd (h ▸ List.getElem_mem hi) (by decide)
    rw [hreg, Function.update_of_ne hne]
    exact hpopped (i + 1) (Nat.succ_lt_succ hi)
  · rw [hpushed]
    refine (push_word _ _).trans ?_
    rw [hdown, hword]

/-! From the resume of the context to the end of its start function. -/

structure Untouched (made m : Machine) (ucp : BitVec 64) (args : List (BitVec 64)) : Prop where
  state : (m.ctx ucp).state = (made.ctx ucp).state
  stack : ∀ k ≤ 1 + max args.length 6 + max args.length 6 % 2,
    m.word (slot ((made.ctx ucp).state .rsp) k) = made.word (slot ((made.ctx ucp).state .rsp) k)

/-- The machine at the first instruction of `start`; `r` is the machine after its return. -/
structure Entered (m : Machine) (ucp start : BitVec 64) (args : List (BitVec 64)) : Prop where
  rip : m.rip = start
  registers : ∀ i (h : i < parameterRegs.length), m.reg parameterRegs[i] = argument args i
  stack : ∀ k, 7 ≤ k → k ≤ args.length →
    m.word (m.reg .rsp + BitVec.ofNat 64 (8 * (k - 6))) = argument args (k - 1)
  aligned : (m.reg .rsp + 8).toNat % 16 = 0
  returns : m.word (m.reg .rsp) = ctxStartReturn
  done : ∀ r : Machine, r.reg .r12 = m.reg .r12 → r.word (m.reg .r12) = m.word (m.reg .r12) →
    (ctxStartTail r).reg .rdi = ucp ∧ ((ctxStartTail r).reg .rsp).toNat % 16 = 0

theorem made_words (m : Machine) {ucp : BitVec 64} (start : BitVec 64) {args : List (BitVec 64)}
    (hucp : ucp ≠ 0) (hown : (m.ctx ucp).mcontext = mcontextOf ucp)
    (haccepted : ¬Refused (m.ctx ucp) args.length) :
    let made := zMakecontext m ucp start args.length (argument args)
    let top := startTop (m.ctx ucp) args
    made.word (slot top 1) = start ∧
      (∀ i < max args.length 6, made.word (slot top (2 + i)) = argument args i) ∧
      made.word (startBase (m.ctx ucp) args) = ucp := by
  intro made top
  have hcount : args.length ≤ 1048576 := by
    have hargc := (not_or.mp (not_or.mp haccepted).2).2
    simp only [NCARGS] at hargc
    omega
  have hlen := stackWords_length start args
  have hsmall : (stackWords start args).length < 2 ^ 60 := by omega
  have hmade : made.word = Function.update (putWords m.word top (stackWords start args)).1
      (startBase (m.ctx ucp) args) ucp := by
    simp only [made, zMakecontext_accepted m start args hucp hown haccepted, top]
  have hput : ∀ {k}, (hk : k < (stackWords start args).length) →
      made.word (slot top k) = (stackWords start args)[k] := by
    intro k hk
    have hbase : slot top k ≠ startBase (m.ctx ucp) args := by
      intro h
      have := slot_inj (by omega) (by omega) h
      omega
    rw [hmade, Function.update_of_ne hbase]
    exact putWords_slot hsmall hk
  refine ⟨hput (k := 1) (by omega), fun i hi => ?_, ?_⟩
  · have hk : 2 + i < (stackWords start args).length := by omega
    have harg := stackWords_argument start args hi
    rw [List.getElem?_eq_getElem hk] at harg
    exact (hput hk).trans (Option.some.inj harg)
  · rw [hmade, Function.update_self]

theorem zMakecontext_refused {m : Machine} {ucp : BitVec 64} (start : BitVec 64) {argc : ℤ}
    (ap : ℕ → BitVec 64) (hucp : ucp ≠ 0) (h : Refused (m.ctx ucp) argc) :
    zMakecontext m ucp start argc ap = m.setCtx ucp { m.ctx ucp with mcsize := 0 } := by
  rw [zMakecontext, if_neg hucp, if_pos h]

theorem made_state (m : Machine) {ucp : BitVec 64} (start : BitVec 64) {args : List (BitVec 64)}
    (hucp : ucp ≠ 0) (hown : (m.ctx ucp).mcontext = mcontextOf ucp)
    (haccepted : ¬Refused (m.ctx ucp) args.length) :
    let state := ((zMakecontext m ucp start args.length (argument args)).ctx ucp).state
    state .rip = ctxStart ∧ state .rsp = slot (startTop (m.ctx ucp) args) 1 ∧
      state .r12 = startBase (m.ctx ucp) args := by
  simp [zMakecontext_accepted m start args hucp hown haccepted]

/-- What is still in the thread state and on the stack when the context is resumed. -/
structure Made (c : Ucontext) (m : Machine) (ucp start : BitVec 64) (args : List (BitVec 64)) :
    Prop where
  rip : (m.ctx ucp).state .rip = ctxStart
  rsp : (m.ctx ucp).state .rsp = slot (startTop c args) 1
  r12 : (m.ctx ucp).state .r12 = startBase c args
  start : m.word (slot (startTop c args) 1) = start
  arguments : ∀ i < max args.length 6, m.word (slot (startTop c args) (2 + i)) = argument args i
  ucp : m.word (startBase c args) = ucp

theorem Untouched.made (m : Machine) {ucp start : BitVec 64} {args : List (BitVec 64)}
    (hucp : ucp ≠ 0) (hown : (m.ctx ucp).mcontext = mcontextOf ucp)
    (haccepted : ¬Refused (m.ctx ucp) args.length) {m' : Machine}
    (h : Untouched (zMakecontext m ucp start args.length (argument args)) m' ucp args) :
    Made (m.ctx ucp) m' ucp start args := by
  obtain ⟨hstart, hargs, hbase⟩ := made_words m start hucp hown haccepted
  obtain ⟨hrip, hrsp, hr12⟩ := made_state m start hucp hown haccepted
  obtain ⟨hstate, hstack⟩ := h
  rw [hrsp] at hstack
  rw [← hstate] at hrip hrsp hr12
  have hkept : ∀ k, 1 ≤ k → k ≤ 2 + max args.length 6 + max args.length 6 % 2 →
      m'.word (slot (startTop (m.ctx ucp) args) k) =
        (zMakecontext m ucp start args.length (argument args)).word
          (slot (startTop (m.ctx ucp) args) k) := by
    intro k hk hlast
    have := hstack (k - 1) (by omega)
    rwa [slot_add, Nat.add_sub_cancel' hk] at this
  refine ⟨hrip, hrsp, hr12, ?_, fun i hi => ?_, ?_⟩
  · rw [hkept 1 (by omega) (by omega), hstart]
  · rw [hkept (2 + i) (by omega) (by omega), hargs i hi]
  · rw [startBase, hkept _ (by omega) (by omega)]
    exact hbase

theorem Made.entered {c : Ucontext} {m' : Machine} {ucp start : BitVec 64}
    {args : List (BitVec 64)} (hmade : Made c m' ucp start args)
    (hargc : (args.length : ℤ) ≤ NCARGS) (a : Answers) :
    (zSetcontext a m' ucp).rip = ctxStart ∧
      Entered (zCtxStart (zSetcontext a m' ucp)) ucp start args := by
  have haligned := startTop_aligned c args
  have hbaseAligned := startBase_aligned c args
  have hcount : args.length ≤ 1048576 := by
    simp only [NCARGS] at hargc
    omega
  obtain ⟨hresumed, -, -⟩ := zSetcontext_resumed a m' ucp
  obtain ⟨hrip, hrsp, hr12, hregs, hword⟩ := zCtxStart_popped (zSetcontext a m' ucp)
  have hresr12 : (zSetcontext a m' ucp).reg .r12 = startBase c args :=
    (congrArg Preserved.r12 hresumed.preserved).trans hmade.r12
  rw [hresumed.word, hresumed.rsp.trans hmade.rsp] at hrip hregs hword
  rw [hresumed.rsp.trans hmade.rsp, slot_add] at hrsp
  rw [slot_add] at hword
  rw [hresr12] at hr12
  -- The return address is put over the last of the six popped words.
  have hother : ∀ k < 2 ^ 60, k ≠ 7 →
      (zCtxStart (zSetcontext a m' ucp)).word (slot (startTop c args) k) =
        m'.word (slot (startTop c args) k) := by
    intro k hk hne
    rw [hword, Function.update_of_ne]
    intro h
    exact hne (slot_inj hk (by omega) h)
  refine ⟨hresumed.rip.trans hmade.rip, ?_, fun i hi => ?_, fun k hk hlast => ?_, ?_, ?_, ?_⟩
  · rw [hrip, hmade.start]
  · have hsix : i < 6 := hi
    rw [hregs i hi, slot_add, show 1 + (i + 1) = 2 + i by omega]
    exact hmade.arguments i (by omega)
  · have hat : (zCtxStart (zSetcontext a m' ucp)).reg .rsp + BitVec.ofNat 64 (8 * (k - 6)) =
        slot (startTop c args) (2 + (k - 1)) := by
      rw [hrsp]
      refine (slot_add _ 7 (k - 6)).trans (congrArg (slot _) ?_)
      omega
    rw [hat, hother _ (by omega) (by omega)]
    exact hmade.arguments (k - 1) (by omega)
  · have hnext : slot (startTop c args) (1 + 6) + 8 =
        slot (startTop c args) 8 := slot_add _ 7 1
    rw [hrsp, hnext]
    exact slot_even haligned rfl
  · rw [hrsp, hword, Function.update_self]
  · intro r hkeeps hkeptBase
    obtain ⟨htail, hdone⟩ := ctxStartTail_done r
    rw [hkeeps, hr12] at htail hdone
    have hbase : (zCtxStart (zSetcontext a m' ucp)).word (startBase c args) = ucp := by
      rw [startBase, hother _ (by omega) (by omega)]
      exact hmade.ucp
    rw [hr12, hbase] at hkeptBase
    exact ⟨hdone.trans hkeptBase, htail ▸ hbaseAligned⟩

end

/-- A context with a stack of `size` bytes, as `z_getcontext` and its caller leave it. -/
def ready (size : BitVec 64) : Machine where
  reg _ := 0
  rip := 0x8000
  word _ := 0
  ctx uctx := ⟨0, 0, ⟨0x10000000, size, 0⟩, 0, 0, mcontextOf uctx, fun _ => 0x8000⟩
  mask := 0

def answers : Answers := ⟨none, none, 0, 0⟩

end ContextStart
