import LibSystemCall.ContextSlots

/-! # Entering a made context

A context whose stack is large enough and clear of the context itself, resumed with that stack as
`z_makecontext` has left it. -/
namespace ContextEntry

open ContextMachine ContextStart ContextSlots

/-- The word at `p` shares a byte with the context at `ucp`. -/
def Overlaps (ucp p : BitVec 64) : Prop :=
  (p - ucp).toNat < ucontextShape.bytes ∨ (ucp - p).toNat < 8

instance (ucp p : BitVec 64) : Decidable (Overlaps ucp p) := inferInstanceAs (Decidable (_ ∨ _))

theorem argsOf_argument (args : List (BitVec 64)) :
    argsOf args.length (argument args) = args := map_argument args

section

variable [CodeAddresses]

/-- Nothing but its stack and its thread state is kept for the context: words that are not on the
stack are other people's, and a thread state under one of the slots was written over. -/
structure Kept (m m' : Machine) (ucp start : BitVec 64) (args : List (BitVec 64)) : Prop where
  stack : ∀ p, Inside (m.ctx ucp).stack p → ¬ Overlaps ucp p →
    m'.word p = (zMakecontext m ucp start args.length (argument args)).word p
  state : (∀ p, Written m ucp start args.length (argument args) p → ¬ Overlaps ucp p) →
    (m'.ctx ucp).state = ((zMakecontext m ucp start args.length (argument args)).ctx ucp).state

theorem Kept.untouched {m m' : Machine} {ucp start : BitVec 64} {args : List (BitVec 64)}
    (h : Kept m m' ucp start args) (hucp : ucp ≠ 0)
    (hown : (m.ctx ucp).mcontext = mcontextOf ucp)
    (haccepted : ¬Refused (m.ctx ucp) args.length)
    (hlarge : neededSize (m.ctx ucp).stack args.length ≤ (m.ctx ucp).stack.size.toNat)
    (hclear : ∀ p, Written m ucp start args.length (argument args) p → ¬ Overlaps ucp p) :
    Untouched (zMakecontext m ucp start args.length (argument args)) m' ucp args := by
  have hsp := (made_state m start hucp hown haccepted).2.1
  refine ⟨h.state hclear, fun k hk => ?_⟩
  rw [hsp, slot_add]
  have hwritten : Written m ucp start args.length (argument args)
      (slot (startTop (m.ctx ucp) args) (1 + k)) := by
    refine (written_iff hucp haccepted _).mpr ⟨1 + k, ?_, ?_⟩
    · rw [Int.toNat_natCast]
      omega
    · rw [argsOf_argument]
  exact h.stack _ (inside_of_fits hucp haccepted hlarge hwritten) (hclear _ hwritten)

/-- A made context whose stack holds its words, clear of the context, enters its start function
with its arguments, and finishes with itself. -/
theorem start_entered (m : Machine) {ucp start : BitVec 64} {args : List (BitVec 64)}
    (hucp : ucp ≠ 0) (hown : (m.ctx ucp).mcontext = mcontextOf ucp)
    (hsp : (m.ctx ucp).stack.sp ≠ 0) (hsize : MINSIGSTKSZ ≤ (m.ctx ucp).stack.size)
    (hargc : (args.length : ℤ) ≤ NCARGS)
    (hlarge : neededSize (m.ctx ucp).stack args.length ≤ (m.ctx ucp).stack.size.toNat)
    (hclear : ∀ p, Written m ucp start args.length (argument args) p → ¬ Overlaps ucp p)
    {m' : Machine} (a : Answers) (hkept : Kept m m' ucp start args) :
    (zSetcontext a m' ucp).rip = ctxStart ∧
      Entered (zCtxStart (zSetcontext a m' ucp)) ucp start args := by
  have haccepted := accepted hsp hsize hargc
  have huntouched := hkept.untouched hucp hown haccepted hlarge hclear
  exact (huntouched.made m hucp hown haccepted).entered hargc a

theorem refused_resumed (a : Answers) (m : Machine) {ucp : BitVec 64} (start : BitVec 64)
    {argc : ℤ} (ap : ℕ → BitVec 64) (hucp : ucp ≠ 0) (h : Refused (m.ctx ucp) argc) :
    (zSetcontext a (zMakecontext m ucp start argc ap) ucp).rip = (m.ctx ucp).state .rip := by
  rw [(zSetcontext_resumed a _ ucp).1.rip, zMakecontext_refused start ap hucp h]
  simp [Machine.setCtx]

theorem ready_clear {size start : BitVec 64} {args : List (BitVec 64)}
    (hlarge : neededSize ((ready size).ctx 0x5000).stack args.length ≤ size.toNat)
    (hsmall : size.toNat ≤ 0x40000000)
    (haccepted : ¬Refused ((ready size).ctx 0x5000) args.length) :
    ∀ p, Written (ready size) 0x5000 start args.length (argument args) p → ¬ Overlaps 0x5000 p := by
  intro p hwritten hover
  have hinside : Inside ⟨0x10000000, size, 0⟩ p :=
    inside_of_fits (by decide) haccepted hlarge hwritten
  have hbytes : ucontextShape.bytes < 0x1000 := by decide
  unfold Inside at hinside
  unfold Overlaps at hover
  rcases hover with hover | hover
  · bv_omega
  · bv_omega

end

local instance : CodeAddresses := placed

theorem start_entered_seven :
    let args : List (BitVec 64) := [1, 2, 3, 4, 5, 6, 7]
    let made := zMakecontext (ready 0x100000) 0x5000 0x4000 args.length (argument args)
    (zSetcontext answers made 0x5000).rip = ctxStart ∧
      Entered (zCtxStart (zSetcontext answers made 0x5000)) 0x5000 0x4000 args :=
  start_entered (ready 0x100000) (by decide) rfl (by decide) (by decide) (by decide) (by decide)
    (ready_clear (by decide) (by decide) (by decide)) answers ⟨fun _ _ _ => rfl, fun _ => rfl⟩

/-- A stack of a gigabyte for 1048577 arguments, and one of 16384 bytes for no argument; both hold
the words, and neither is near the context. -/
theorem refused_not_entered :
    let many : List (BitVec 64) := List.replicate 1048577 0
    (neededSize ((ready 0x40000000).ctx 0x5000).stack many.length ≤ 0x40000000 ∧
      ¬((zSetcontext answers (zMakecontext (ready 0x40000000) 0x5000 0x4000 many.length
          (argument many)) 0x5000).rip = ctxStart ∧
        Entered (zCtxStart (zSetcontext answers (zMakecontext (ready 0x40000000) 0x5000 0x4000
          many.length (argument many)) 0x5000)) 0x5000 0x4000 many)) ∧
    (neededSize ((ready 0x4000).ctx 0x5000).stack 0 ≤ 0x4000 ∧
      ¬((zSetcontext answers (zMakecontext (ready 0x4000) 0x5000 0x4000 0
          (argument [])) 0x5000).rip = ctxStart ∧
        Entered (zCtxStart (zSetcontext answers (zMakecontext (ready 0x4000) 0x5000 0x4000 0
          (argument [])) 0x5000)) 0x5000 0x4000 [])) := by
  intro many
  have hlen : many.length = 1048577 := List.length_replicate
  have hrefused : Refused ((ready 0x40000000).ctx 0x5000) many.length := by
    rw [hlen]
    decide
  refine ⟨⟨?_, fun h => ?_⟩, by decide, fun h => ?_⟩
  · rw [hlen]
    decide
  · have hrip := refused_resumed answers _ 0x4000 (argument many) (by decide) hrefused
    exact absurd (hrip.symm.trans h.1) (by decide)
  · have hrefused : Refused ((ready 0x4000).ctx 0x5000) 0 := by decide
    have hrip := refused_resumed answers _ 0x4000 (argument []) (by decide) hrefused
    exact absurd (hrip.symm.trans h.1) (by decide)

end ContextEntry
