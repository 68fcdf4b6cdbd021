import LibSystemCall.ContextStart

/-! # The call of z_swapcontext

Where a compiler keeps the variables of the function over its call of `z_getcontext` is a
parameter: in registers that `z_getcontext` saves, or in words of the frame. -/
namespace ContextSwap

open ContextMachine ContextStart

structure Locals where
  oucp : BitVec 64
  ucp : BitVec 64
  saved : Preserved

/-- `enter sp` has the registers and the words, lowest first, of a frame below `sp`. -/
structure Frame where
  words : ℕ
  enter : BitVec 64 → Locals → Preserved × List (BitVec 64)
  recover : Preserved × List (BitVec 64) → Locals
  length_enter : ∀ sp l, (enter sp l).2.length = words
  recover_enter : ∀ sp l, recover (enter sp l) = l
  words_small : words < 2 ^ 32

variable (f : Frame)

/-- The lowest word of the frame of a call whose return address is at `sp`. -/
def frameBase (sp : BitVec 64) : BitVec 64 := sp - BitVec.ofNat 64 (8 * f.words)

def buildFrame (m : Machine) (oucp ucp : BitVec 64) : Machine :=
  let sp := m.reg .rsp
  let (kept, words) := f.enter sp ⟨oucp, ucp, m.preserved⟩
  let m := { m with word := (putWords m.word (frameBase f sp) words).1 }
  (m.keep kept).setReg .rsp (frameBase f sp)

def localsOf (m : Machine) : Locals :=
  f.recover (m.preserved, (List.range f.words).map fun i => m.word (slot (m.reg .rsp) i))

/-- `(ret == 0) && !(oucp->uc_onstack & UCF_SWAPPED)` -/
def FirstReturn (m : Machine) : Prop :=
  (m.reg .rax).setWidth 32 = 0 ∧ (m.ctx (localsOf f m).oucp).onstack &&& UCF_SWAPPED = 0

instance (m : Machine) : Decidable (FirstReturn f m) := inferInstanceAs (Decidable (_ ∧ _))

/-- From a return of `z_getcontext`. -/
def swapRest (a : Answers) (m : Machine) : Machine :=
  let l := localsOf f m
  if FirstReturn f m then
    let c := m.ctx l.oucp
    zSetcontext a (m.setCtx l.oucp { c with onstack := c.onstack ||| UCF_SWAPPED }) l.ucp
  else
    let sp := slot (m.reg .rsp) f.words
    { (m.keep l.saved).setReg .rsp (sp + 8) with rip := m.word sp }

/-- `sp` is where the return address `ra` is; the stack pointer of the caller is above it. -/
structure Call where
  number : ℕ
  locals : Locals
  sp : BitVec 64
  ra : BitVec 64

def Call.kept (call : Call) : Preserved := (f.enter call.sp call.locals).1

structure FrameIntact (m : Machine) (call : Call) : Prop where
  words : (List.range f.words).map (fun i => m.word (slot (frameBase f call.sp) i)) =
    (f.enter call.sp call.locals).2
  ra : m.word call.sp = call.ra

structure Returned (m : Machine) (call : Call) : Prop where
  rip : m.rip = call.ra
  rax : m.reg .rax = 0
  rsp : m.reg .rsp = call.sp + 8
  preserved : m.preserved = call.locals.saved

variable {f}

theorem slot_frameBase (sp : BitVec 64) : slot (frameBase f sp) f.words = sp :=
  BitVec.sub_add_cancel _ _

theorem buildFrame_built (m : Machine) (oucp ucp : BitVec 64) :
    let m' := buildFrame f m oucp ucp
    let entered := f.enter (m.reg .rsp) ⟨oucp, ucp, m.preserved⟩
    m'.reg .rsp = frameBase f (m.reg .rsp) ∧ m'.preserved = entered.1 ∧ m'.ctx = m.ctx ∧
      m'.mask = m.mask ∧
      m'.word = (putWords m.word (frameBase f (m.reg .rsp)) entered.2).1 :=
  ⟨rfl, rfl, rfl, rfl, rfl⟩

theorem slot_above {p : BitVec 64} {j k : ℕ} (hj : 0 < j) (hsum : j + k < 2 ^ 60) :
    slot p k ≠ p - BitVec.ofNat 64 (8 * j) := by
  intro h
  have hback : slot (p - BitVec.ofNat 64 (8 * j)) (j + k) =
      slot (p - BitVec.ofNat 64 (8 * j)) 0 := by
    rw [← slot_add, slot_zero]
    refine Eq.trans (congrArg (slot · k) ?_) h
    exact BitVec.sub_add_cancel _ _
  have := slot_inj (by omega) (by omega) hback
  omega

structure Called (m m' : Machine) (uctx ra : BitVec 64) : Prop where
  rip : m'.rip = ra
  rsp : m'.reg .rsp = m.reg .rsp
  rax : m'.reg .rax = 0
  preserved : m'.preserved = m.preserved
  savedRip : (m'.ctx uctx).state .rip = ra
  savedRsp : (m'.ctx uctx).state .rsp = m.reg .rsp
  savedPreserved : (m'.ctx uctx).preserved = m.preserved
  onstack : (m'.ctx uctx).onstack = (m.ctx uctx).onstack
  mcontext : (m'.ctx uctx).mcontext = mcontextOf uctx
  above : ∀ k < 2 ^ 32, m'.word (slot (m.reg .rsp) k) = m.word (slot (m.reg .rsp) k)
  others : ∀ c, c ≠ uctx → m'.ctx c = m.ctx c
  mask : m'.mask = m.mask

theorem zGetcontext_called (a : Answers) (m : Machine) (uctx ra : BitVec 64) :
    Called m (zGetcontext a (m.call uctx ra)) uctx ra := by
  have hsaved : Saved (m.call uctx ra) (zGetcontext a (m.call uctx ra)) uctx :=
    zGetcontext_saved a rfl
  have hrsp : (m.call uctx ra).reg .rsp = m.reg .rsp - 8 := rfl
  have hword : (m.call uctx ra).word = Function.update m.word (m.reg .rsp - 8) ra := rfl
  have htop : (m.call uctx ra).word ((m.call uctx ra).reg .rsp) = ra := by
    rw [hrsp, hword, Function.update_self]
  have hback : (m.call uctx ra).reg .rsp + 8 = m.reg .rsp := BitVec.sub_add_cancel _ _
  have hpreserved : (m.call uctx ra).preserved = m.preserved := rfl
  obtain ⟨hrip, hsp, hrax, hkept, hsrip, hsrsp, hskept, honstack, hmcontext, hwords, hothers,
    hmask⟩ := hsaved
  rw [htop] at hrip hsrip
  rw [hback] at hsp hsrsp
  rw [hpreserved] at hkept hskept
  refine ⟨hrip, hsp, hrax, hkept, hsrip, hsrsp, hskept, honstack, hmcontext, fun k hk => ?_,
    hothers, hmask⟩
  have hbelow : m.reg .rsp - 8 - 8 = m.reg .rsp - BitVec.ofNat 64 (8 * 2) := by
    rw [BitVec.sub_sub]
    rfl
  rw [hwords, hrsp, hbelow, Function.update_of_ne (slot_above (by decide) (by omega)), hword]
  exact Function.update_of_ne (slot_above (j := 1) (by decide) (by omega)) _ _

theorem buildFrame_intact {m : Machine} (oucp ucp : BitVec 64) {call : Call}
    (hsp : m.reg .rsp = call.sp) (hra : m.word call.sp = call.ra)
    (hlocals : call.locals = ⟨oucp, ucp, m.preserved⟩) :
    FrameIntact f (buildFrame f m oucp ucp) call := by
  obtain ⟨-, -, -, -, hword⟩ := buildFrame_built (f := f) m oucp ucp
  rw [hsp, ← hlocals] at hword
  have hsmall := f.words_small
  have hlen := f.length_enter call.sp call.locals
  refine ⟨List.ext_getElem ?_ fun k hk hlt => ?_, ?_⟩
  · rw [List.length_map, List.length_range, hlen]
  · rw [List.getElem_map, List.getElem_range, hword]
    exact putWords_slot (by omega) hlt
  · rw [hword, putWords_outside, hra]
    intro k hk h
    have hlast := (slot_frameBase (f := f) call.sp).trans h
    have := slot_inj (by omega) (by omega) hlast
    omega

theorem FrameIntact.above {m m' : Machine} {call : Call} (h : FrameIntact f m call)
    (hsame : ∀ k ≤ f.words,
      m'.word (slot (frameBase f call.sp) k) = m.word (slot (frameBase f call.sp) k)) :
    FrameIntact f m' call := by
  constructor
  · rw [← h.words]
    refine List.map_congr_left fun k hk => hsame k ?_
    exact Nat.le_of_lt (List.mem_range.mp hk)
  · have hlast := hsame f.words (Nat.le_refl _)
    rwa [slot_frameBase, h.ra] at hlast

section

variable [CodeAddresses] (f)

/-- From the first instruction of `z_swapcontext`, for contexts that are not null, to the first
return of its `z_getcontext`. -/
def swapEntry (a : Answers) (m : Machine) (oucp ucp : BitVec 64) : Machine :=
  let m := buildFrame f m oucp ucp
  let c := m.ctx oucp
  let m := m.setCtx oucp { c with onstack := c.onstack &&& ~~~UCF_SWAPPED }
  zGetcontext a (m.call oucp swapReturn)

def EINVAL : ℤ := 22

/-- `return -1;`, and `z_errno`. -/
def zSwapcontext (a : Answers) (m : Machine) (errno : ℤ) (oucp ucp : BitVec 64) : Machine × ℤ :=
  if oucp = 0 ∨ ucp = 0 then
    ({ (m.setReg .rax 0xFFFFFFFF).setReg .rsp (m.reg .rsp + 8) with
      rip := m.word (m.reg .rsp) }, EINVAL)
  else (swapEntry f a m oucp ucp, errno)

structure AtReturn (m : Machine) (call : Call) : Prop where
  rip : m.rip = swapReturn
  rsp : m.reg .rsp = frameBase f call.sp
  preserved : m.preserved = call.kept f
  rax : m.reg .rax = 0

structure SavedBy (c : Ucontext) (call : Call) : Prop where
  rip : c.state .rip = swapReturn
  rsp : c.state .rsp = frameBase f call.sp
  preserved : c.preserved = call.kept f

variable {f}

theorem SavedBy.resumed {m m' : Machine} {c : Ucontext} {call : Call} (h : SavedBy f c call)
    (hresumed : Resumed m m' c) : AtReturn f m' call :=
  ⟨hresumed.rip.trans h.rip, hresumed.rsp.trans h.rsp, hresumed.preserved.trans h.preserved,
    hresumed.rax⟩

theorem AtReturn.locals {m : Machine} {call : Call} (h : AtReturn f m call)
    (hintact : FrameIntact f m call) : localsOf f m = call.locals := by
  rw [localsOf, h.preserved, h.rsp, hintact.words]
  exact f.recover_enter _ _

theorem AtReturn.firstReturn {m : Machine} {call : Call} (h : AtReturn f m call)
    (hintact : FrameIntact f m call) :
    FirstReturn f m ↔ (m.ctx call.locals.oucp).onstack &&& UCF_SWAPPED = 0 := by
  rw [FirstReturn, h.locals hintact, h.rax]
  exact and_iff_right rfl

theorem AtReturn.returned {m : Machine} {call : Call} (h : AtReturn f m call)
    (hintact : FrameIntact f m call)
    (hbit : (m.ctx call.locals.oucp).onstack &&& UCF_SWAPPED ≠ 0) (a : Answers) :
    Returned (swapRest f a m) call ∧ (swapRest f a m).ctx = m.ctx := by
  have hlast : ¬FirstReturn f m := fun hfirst => hbit ((h.firstReturn hintact).mp hfirst)
  have hsp : slot (m.reg .rsp) f.words = call.sp := by rw [h.rsp, slot_frameBase]
  simp only [swapRest, if_neg hlast, h.locals hintact, hsp]
  exact ⟨⟨hintact.ra, h.rax, rfl, rfl⟩, rfl⟩

theorem AtReturn.switched {m : Machine} {call : Call} (h : AtReturn f m call)
    (hintact : FrameIntact f m call)
    (hbit : (m.ctx call.locals.oucp).onstack &&& UCF_SWAPPED = 0) (a : Answers) :
    let c := m.ctx call.locals.oucp
    swapRest f a m = zSetcontext a
      (m.setCtx call.locals.oucp { c with onstack := c.onstack ||| UCF_SWAPPED })
      call.locals.ucp := by
  intro c
  have hfirst := (h.firstReturn hintact).mpr hbit
  simp only [swapRest, if_pos hfirst, h.locals hintact, c]

theorem swapEntry_entered (a : Answers) {m : Machine} (oucp ucp : BitVec 64) {call : Call}
    (hsp : m.reg .rsp = call.sp) (hra : m.word call.sp = call.ra)
    (hlocals : call.locals = ⟨oucp, ucp, m.preserved⟩) :
    let m' := swapEntry f a m oucp ucp
    AtReturn f m' call ∧ FrameIntact f m' call ∧ SavedBy f (m'.ctx oucp) call ∧
      (m'.ctx oucp).onstack &&& UCF_SWAPPED = 0 ∧ (m'.ctx oucp).mcontext = mcontextOf oucp ∧
      (∀ c, c ≠ oucp → m'.ctx c = m.ctx c) ∧ m'.mask = m.mask := by
  intro m'
  have hintact := buildFrame_intact (f := f) oucp ucp hsp hra hlocals
  obtain ⟨hbase, hkept, hctx, hmask, -⟩ := buildFrame_built (f := f) m oucp ucp
  rw [hsp, ← hlocals] at hkept
  rw [hsp] at hbase
  let built := buildFrame f m oucp ucp
  let c := built.ctx oucp
  let cleared := built.setCtx oucp { c with onstack := c.onstack &&& ~~~UCF_SWAPPED }
  have hcalled : Called cleared m' oucp swapReturn := zGetcontext_called a cleared oucp swapReturn
  have hrsp : cleared.reg .rsp = frameBase f call.sp := hbase
  have hpreserved : cleared.preserved = call.kept f := hkept
  have hsmall := f.words_small
  have habove := hcalled.above
  rw [hrsp] at habove
  refine ⟨⟨hcalled.rip, hcalled.rsp.trans hrsp, hcalled.preserved.trans hpreserved, hcalled.rax⟩,
    hintact.above fun k hk => habove k (by omega),
    ⟨hcalled.savedRip, hcalled.savedRsp.trans hrsp, hcalled.savedPreserved.trans hpreserved⟩,
    ?_, hcalled.mcontext, fun d hd => ?_, hcalled.mask.trans hmask⟩
  · have hcleared : (cleared.ctx oucp).onstack = c.onstack &&& ~~~UCF_SWAPPED :=
      congrArg Ucontext.onstack (Function.update_self oucp _ built.ctx)
    rw [hcalled.onstack, hcleared, BitVec.and_assoc, BitVec.not_and_self]
    exact BitVec.and_zero
  · rw [hcalled.others d hd]
    exact (Function.update_of_ne hd _ _).trans (congrFun hctx d)

end

end ContextSwap
