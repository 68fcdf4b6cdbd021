import LibSystemCall.ContextStart

/-! # The slots of a made context

Which words `z_makecontext` writes, and when they are all on the stack of the context. -/
namespace ContextSlots

open ContextMachine ContextStart

def Inside (stack : SignalStack) (p : BitVec 64) : Prop :=
  (p - stack.sp).toNat + 8 ≤ stack.size.toNat

instance (stack : SignalStack) (p : BitVec 64) : Decidable (Inside stack p) :=
  inferInstanceAs (Decidable (_ ≤ _))

/-- The slots for the arguments, four more, and what the alignment skips. -/
def neededSize (stack : SignalStack) (argc : ℤ) : ℕ :=
  let n := max argc.toNat 6
  8 * n + 32 + (stack.sp.toNat + stack.size.toNat + 8 * n) % 16

theorem inside_iff_between {stack : SignalStack} {p : BitVec 64}
    (hend : stack.sp.toNat + stack.size.toNat ≤ 2 ^ 64) :
    Inside stack p ↔ stack.sp.toNat ≤ p.toNat ∧
      p.toNat + 8 ≤ stack.sp.toNat + stack.size.toNat := by
  have hp := p.isLt
  have hsp := stack.sp.isLt
  have hsize := stack.size.isLt
  unfold Inside
  rw [BitVec.toNat_sub]
  constructor
  · intro h
    constructor <;> omega
  · rintro ⟨hlow, hhigh⟩
    omega

variable {m : Machine} {ucp start : BitVec 64} {argc : ℤ} {ap : ℕ → BitVec 64}

def argsOf (argc : ℤ) (ap : ℕ → BitVec 64) : List (BitVec 64) := (List.range argc.toNat).map ap

theorem length_argsOf (argc : ℤ) (ap : ℕ → BitVec 64) : (argsOf argc ap).length = argc.toNat := by
  rw [argsOf, List.length_map, List.length_range]

theorem accepted_count (haccepted : ¬Refused (m.ctx ucp) argc) : argc.toNat ≤ 1048576 := by
  have hargc := (not_or.mp (not_or.mp haccepted).2).2
  simp only [NCARGS] at hargc
  omega

theorem align_down_sub (x : BitVec 64) :
    x &&& ~~~15#64 = x - BitVec.ofNat 64 (x.toNat % 16) := by
  apply BitVec.eq_of_toNat_eq
  have hx := x.isLt
  have hle : x.toNat % 16 ≤ x.toNat := Nat.mod_le _ _
  rw [align_down, BitVec.toNat_sub, BitVec.toNat_ofNat]
  omega

theorem toNat_sub_mod (x y : BitVec 64) :
    (x - y).toNat % 16 = (x.toNat + (2 ^ 64 - y.toNat)) % 16 := by
  rw [BitVec.toNat_sub]
  omega

theorem skipped_eq {top : BitVec 64} {n total : ℕ} (htop : top.toNat = total % 2 ^ 64)
    (hn : n < 2 ^ 60) :
    (top - 8 - BitVec.ofNat 64 (8 * (1 + n))).toNat % 16 = (total + 8 * n) % 16 := by
  have hsub : (BitVec.ofNat 64 (8 * (1 + n))).toNat = 8 * (1 + n) := by
    rw [BitVec.toNat_ofNat, Nat.mod_eq_of_lt]
    omega
  have hfirst := toNat_sub_mod top 8
  have hsecond := toNat_sub_mod (top - 8) (BitVec.ofNat 64 (8 * (1 + n)))
  change (top - 8).toNat % 16 = (top.toNat + (2 ^ 64 - 8)) % 16 at hfirst
  rw [hsub] at hsecond
  omega

theorem sub_sub_eq (top : BitVec 64) (n skipped : ℕ) :
    top - 8 - BitVec.ofNat 64 (8 * (1 + n)) - BitVec.ofNat 64 skipped - 16 =
      top - BitVec.ofNat 64 (8 * n + 32 + skipped) := by
  have hsum : BitVec.ofNat 64 (8 * n + 32 + skipped) =
      8 + (BitVec.ofNat 64 (8 * (1 + n)) + (BitVec.ofNat 64 skipped + 16)) := by
    have hparts : 8 * n + 32 + skipped = 8 + (8 * (1 + n) + (skipped + 16)) := by omega
    rw [hparts, BitVec.ofNat_add, BitVec.ofNat_add, BitVec.ofNat_add]
    rfl
  rw [hsum, BitVec.sub_sub, BitVec.sub_sub, BitVec.sub_sub]

theorem startTop_eq (c : Ucontext) {args : List (BitVec 64)} (hcount : args.length < 2 ^ 60) :
    startTop c args =
      c.stack.sp + c.stack.size - BitVec.ofNat 64 (neededSize c.stack args.length) := by
  have hend : (c.stack.sp + c.stack.size).toNat =
      (c.stack.sp.toNat + c.stack.size.toNat) % 2 ^ 64 := BitVec.toNat_add _ _
  have hmax : max args.length 6 < 2 ^ 60 := by omega
  rw [neededSize, Int.toNat_natCast, startTop, stackTop]
  generalize max args.length 6 = n at *
  have hcast : 8 * (1 + (n : ℤ)) = ((8 * (1 + n) : ℕ) : ℤ) := by omega
  rw [hcast, BitVec.ofInt_natCast, align_down_sub, skipped_eq hend hmax]
  exact sub_sub_eq _ n _

theorem slot_offset (c : Ucontext) (ap : ℕ → BitVec 64) (hcount : argc.toNat < 2 ^ 60) (k : ℕ) :
    slot (startTop c (argsOf argc ap)) k - c.stack.sp =
      c.stack.size + BitVec.ofNat 64 (8 * k) - BitVec.ofNat 64 (neededSize c.stack argc) := by
  have hlen := length_argsOf argc ap
  have hsame : neededSize c.stack (argc.toNat : ℤ) = neededSize c.stack argc := by
    rw [neededSize, neededSize, Int.toNat_natCast]
  rw [slot, startTop_eq c (by omega), hlen, hsame]
  bv_omega

theorem neededSize_bounds (stack : SignalStack) (argc : ℤ) :
    8 * max argc.toNat 6 + 32 ≤ neededSize stack argc ∧
      neededSize stack argc ≤ 8 * max argc.toNat 6 + 47 := by
  rw [neededSize]
  omega

section

variable [CodeAddresses]

def Written (m : Machine) (ucp start : BitVec 64) (argc : ℤ) (ap : ℕ → BitVec 64)
    (p : BitVec 64) : Prop :=
  ∃ word, (zMakecontext { m with word := word } ucp start argc ap).word p ≠ word p

theorem zMakecontext_word (hucp : ucp ≠ 0) (haccepted : ¬Refused (m.ctx ucp) argc)
    (start : BitVec 64) (ap : ℕ → BitVec 64) :
    (zMakecontext m ucp start argc ap).word =
      Function.update
        (putWords m.word (startTop (m.ctx ucp) (argsOf argc ap))
          (stackWords start (argsOf argc ap))).1
        (startBase (m.ctx ucp) (argsOf argc ap)) ucp := by
  have hpos : 0 ≤ argc := by
    have := (not_or.mp (not_or.mp haccepted).2).1
    omega
  have hlen : ((argsOf argc ap).length : ℤ) = argc := by
    rw [length_argsOf]
    omega
  have hmap : (List.range argc.toNat).map (argument (argsOf argc ap)) =
      (List.range argc.toNat).map ap := by
    have h := map_argument (argsOf argc ap)
    rwa [length_argsOf] at h
  have htop : stackTop (m.ctx ucp) (if argc < 6 then 6 else argc) =
      startTop (m.ctx ucp) (argsOf argc ap) := by
    rw [startTop]
    congr 1
    split <;> omega
  have hput := putWords_start m.word (startTop (m.ctx ucp) (argsOf argc ap)) start (argsOf argc ap)
  have hargp := putWords_argp m.word (startTop (m.ctx ucp) (argsOf argc ap))
    (stackWords start (argsOf argc ap))
  rw [stackWords_length] at hargp
  simp only [hlen, hmap] at hput
  simp only [zMakecontext, if_neg hucp, if_neg haccepted, Machine.setCtx]
  rw [htop, hput, hargp]
  rfl

theorem written_iff (hucp : ucp ≠ 0) (haccepted : ¬Refused (m.ctx ucp) argc) (p : BitVec 64) :
    Written m ucp start argc ap p ↔
      ∃ k ≤ 2 + max argc.toNat 6 + max argc.toNat 6 % 2,
        p = slot (startTop (m.ctx ucp) (argsOf argc ap)) k := by
  have hcount := accepted_count haccepted
  have hlen := stackWords_length start (argsOf argc ap)
  rw [length_argsOf] at hlen
  have hbase : startBase (m.ctx ucp) (argsOf argc ap) =
      slot (startTop (m.ctx ucp) (argsOf argc ap))
        (2 + max argc.toNat 6 + max argc.toNat 6 % 2) := by
    rw [startBase, length_argsOf]
  have hword := fun word => zMakecontext_word (m := { m with word := word }) hucp haccepted start ap
  constructor
  · rintro ⟨word, hchanged⟩
    by_contra hnone
    apply hchanged
    rw [hword]
    have hne : p ≠ startBase (m.ctx ucp) (argsOf argc ap) := by
      intro h
      exact hnone ⟨_, le_refl _, h.trans hbase⟩
    rw [Function.update_of_ne hne]
    apply putWords_outside
    intro k hk heq
    exact hnone ⟨k, by omega, heq⟩
  · rintro ⟨k, hk, rfl⟩
    by_cases hlast : k = 2 + max argc.toNat 6 + max argc.toNat 6 % 2
    · refine ⟨fun _ => ucp + 1, ?_⟩
      rw [hword, hlast, ← hbase, Function.update_self]
      bv_omega
    · have hin : k < (stackWords start (argsOf argc ap)).length := by omega
      refine ⟨fun _ => (stackWords start (argsOf argc ap))[k] + 1, ?_⟩
      have hne : slot (startTop (m.ctx ucp) (argsOf argc ap)) k ≠
          startBase (m.ctx ucp) (argsOf argc ap) := by
        rw [hbase]
        intro h
        exact hlast (slot_inj (by omega) (by omega) h)
      rw [hword, Function.update_of_ne hne]
      rw [putWords_slot (by omega) hin]
      generalize (stackWords start (argsOf argc ap))[k] = v
      bv_omega

theorem fits_of_inside (hucp : ucp ≠ 0) (haccepted : ¬Refused (m.ctx ucp) argc)
    (h : ∀ p, Written m ucp start argc ap p → Inside (m.ctx ucp).stack p) :
    neededSize (m.ctx ucp).stack argc ≤ (m.ctx ucp).stack.size.toNat := by
  have hcount := accepted_count haccepted
  have hbounds := neededSize_bounds (m.ctx ucp).stack argc
  have hzero := h _ ((written_iff hucp haccepted _).mpr ⟨0, Nat.zero_le _, rfl⟩)
  rw [Inside, slot_offset _ _ (by omega)] at hzero
  bv_omega

theorem inside_of_fits (hucp : ucp ≠ 0) (haccepted : ¬Refused (m.ctx ucp) argc)
    (hfits : neededSize (m.ctx ucp).stack argc ≤ (m.ctx ucp).stack.size.toNat) {p : BitVec 64}
    (hwritten : Written m ucp start argc ap p) : Inside (m.ctx ucp).stack p := by
  have hcount := accepted_count haccepted
  have hbounds := neededSize_bounds (m.ctx ucp).stack argc
  obtain ⟨k, hk, rfl⟩ := (written_iff hucp haccepted p).mp hwritten
  rw [Inside, slot_offset _ _ (by omega)]
  bv_omega

/-- Exactly the stacks that have the slots, the four words and the padding get nothing written
outside; the number of arguments is checked against a limit of its own. -/
theorem written_inside_iff (hucp : ucp ≠ 0) (haccepted : ¬Refused (m.ctx ucp) argc) :
    (∀ p, Written m ucp start argc ap p → Inside (m.ctx ucp).stack p) ↔
      neededSize (m.ctx ucp).stack argc ≤ (m.ctx ucp).stack.size.toNat := by
  constructor
  · exact fits_of_inside hucp haccepted
  · intro hfits p hwritten
    exact inside_of_fits hucp haccepted hfits hwritten

end

local instance : CodeAddresses := placed

theorem written_inside_seven :
    neededSize ((ready 0x8000).ctx 0x5000).stack 7 ≤ 0x8000 ∧
      ∀ p, Written (ready 0x8000) 0x5000 0x4000 7 (fun _ => 1) p →
        Inside ((ready 0x8000).ctx 0x5000).stack p :=
  ⟨by decide, (written_inside_iff (by decide) (by decide)).mpr (by decide)⟩

/-- 4096 arguments on a stack of the least size. -/
theorem arguments_leave_stack :
    ¬ ∀ (m : Machine) (ucp start : BitVec 64) (argc : ℤ) (ap : ℕ → BitVec 64), ucp ≠ 0 →
      ¬Refused (m.ctx ucp) argc →
        ∀ p, Written m ucp start argc ap p → Inside (m.ctx ucp).stack p := by
  intro h
  have hfits := fits_of_inside (by decide) (by decide)
    (h (ready 0x8000) 0x5000 0x4000 4096 (fun _ => 1) (by decide) (by decide))
  exact absurd hfits (by decide)

end ContextSlots
