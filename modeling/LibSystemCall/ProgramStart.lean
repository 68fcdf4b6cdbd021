import LibSystemCall.ContextStart

/-! # From the entry of the program to z_main

`z_start` and `zz_main` find the vectors of the kernel from the stack pointer alone: behind the
count `argv`, `envp` and `apple` follow one another, each with a null pointer at its end. -/
namespace ProgramStart

open ContextStart (slot slot_zero slot_add align_down)

/-- The registers that the entry code sets, and the aligned words of the stack. -/
structure Machine where
  rsp : BitVec 64
  rbp : BitVec 64
  rdi : BitVec 64
  esi : BitVec 32
  rdx : BitVec 64
  rcx : BitVec 64
  r8 : BitVec 64
  word : BitVec 64 → BitVec 64

def pop (m : Machine) : BitVec 64 × Machine := (m.word m.rsp, { m with rsp := m.rsp + 8 })

def push (v : BitVec 64) (m : Machine) : Machine :=
  { m with rsp := m.rsp - 8, word := Function.update m.word (m.rsp - 8) v }

/-- The code in the body of `z_start` up to the first instruction of `zz_main`; `dsoHandle` is
the address of `___dso_handle` and `ra` the address behind the call. -/
def zStart (dsoHandle ra : BitVec 64) (m : Machine) : Machine :=
  let (rdi, m) := pop m
  let m := push 0 { m with rdi := rdi }
  let m := { m with rbp := m.rsp }
  let m := { m with rsp := m.rsp &&& ~~~15#64 }
  let m := { m with rsp := m.rsp - 16 }
  let m := { m with esi := (m.word (m.rbp + 8)).setWidth 32 }
  let m := { m with rdx := m.rbp + 16, rcx := dsoHandle, r8 := m.rbp - 8 }
  push ra m

/-- What is called, in order; a vector is given by its address. -/
inductive Call where
  | print (text : String)
  | printString (string : BitVec 64)
  | getProcessorInfo
  | machInit
  | pthreadSetSelf
  | pthreadInit (envp apple : BitVec 64)
  | tlvInitializer (mh : BitVec 64)
  | atexitInit
  | main (argc : BitVec 32) (argv envp apple : BitVec 64)
  | exit (status : BitVec 32)
  deriving DecidableEq

def zInit (envp apple mh : BitVec 64) : List Call :=
  [.print "enter z_init\n", .getProcessorInfo, .machInit, .pthreadSetSelf,
    .pthreadInit envp apple, .tlvInitializer mh, .atexitInit]

def zFini : List Call := [.print "enter z_fini\n"]

def printVector (word : BitVec 64 → BitVec 64) :
    ℕ → BitVec 64 → Option (List Call × BitVec 64)
  | 0, _ => none
  | fuel + 1, p =>
    if word p = 0 then some ([], p)
    else (printVector word fuel (p + 8)).map fun r => (.printString (word p) :: r.1, r.2)

/-- `zMain` gives the value that `z_main` returns for its arguments. -/
def zzMain (zMain : BitVec 32 → BitVec 64 → BitVec 64 → BitVec 64 → BitVec 32) (fuel : ℕ)
    (m : Machine) : Option (List Call) :=
  let argc := m.esi
  let argv := m.rdx
  let dyldHeader := m.rcx
  let envp := argv + argc.signExtend 64 * 8 + 8
  (printVector m.word fuel envp).bind fun (printed, p) =>
    let apple := p + 8
    (printVector m.word fuel apple).map fun (printed', _) =>
      printed ++ printed' ++ zInit envp apple dyldHeader ++
        [.main argc argv envp apple] ++ zFini ++ [.exit (zMain argc argv envp apple)]

def WordsAt (word : BitVec 64 → BitVec 64) (p : BitVec 64) (vs : List (BitVec 64)) : Prop :=
  ∀ k (h : k < vs.length), word (slot p k) = vs[k]

variable {word : BitVec 64 → BitVec 64} {p : BitVec 64}

theorem wordsAt_append {xs ys : List (BitVec 64)} :
    WordsAt word p (xs ++ ys) ↔ WordsAt word p xs ∧ WordsAt word (slot p xs.length) ys := by
  constructor
  · intro h
    refine ⟨fun k hk => ?_, fun k hk => ?_⟩
    · rw [h k (by rw [List.length_append]; omega), List.getElem_append_left hk]
    · rw [slot_add, h (xs.length + k) (by rw [List.length_append]; omega),
        List.getElem_append_right (Nat.le_add_right _ _)]
      simp only [Nat.add_sub_cancel_left]
  · rintro ⟨hxs, hys⟩ k hk
    by_cases hlt : k < xs.length
    · rw [List.getElem_append_left hlt, hxs k hlt]
    · rw [List.getElem_append_right (Nat.le_of_not_lt hlt), ← hys, slot_add,
        Nat.add_sub_cancel' (Nat.le_of_not_lt hlt)]

theorem wordsAt_cons {v : BitVec 64} {vs : List (BitVec 64)} :
    WordsAt word p (v :: vs) ↔ word p = v ∧ WordsAt word (p + 8) vs := by
  have hsingle : WordsAt word p [v] ↔ word p = v := by
    constructor
    · intro h
      rw [← slot_zero p]
      exact h 0 (Nat.succ_pos _)
    · intro h k hk
      obtain rfl : k = 0 := by simpa using hk
      rw [slot_zero]
      exact h
  rw [← List.singleton_append, wordsAt_append, hsingle]
  exact Iff.rfl

theorem WordsAt.congr {word' : BitVec 64 → BitVec 64} {vs : List (BitVec 64)}
    (h : WordsAt word p vs) (hsame : ∀ k < vs.length, word' (slot p k) = word (slot p k)) :
    WordsAt word' p vs := by
  intro k hk
  rw [hsame k hk, h k hk]

theorem printVector_vector {vs rest : List (BitVec 64)} (hnull : 0 ∉ vs) {fuel : ℕ} :
    ∀ {p : BitVec 64}, vs.length < fuel → WordsAt word p (vs ++ 0 :: rest) →
      printVector word fuel p = some (vs.map .printString, slot p vs.length) := by
  induction vs generalizing fuel with
  | nil =>
    intro p hfuel h
    obtain ⟨fuel, rfl⟩ := Nat.exists_eq_add_one.mpr hfuel
    rw [printVector, if_pos (wordsAt_cons.mp h).1, List.length_nil, slot_zero]
    rfl
  | cons v vs ih =>
    intro p hfuel h
    obtain ⟨fuel, rfl⟩ := Nat.exists_eq_add_one.mpr (Nat.zero_lt_of_lt hfuel)
    rw [List.cons_append, wordsAt_cons] at h
    have hv : word p ≠ 0 := by
      rw [h.1]
      exact fun heq => hnull (heq ▸ List.mem_cons_self)
    have hnext : p + 8 = slot p 1 := rfl
    rw [printVector, if_neg hv, ih (fun hmem => hnull (List.mem_cons_of_mem _ hmem))
      (Nat.lt_of_succ_lt_succ hfuel) h.2, h.1, hnext, slot_add, List.length_cons, Nat.add_comm]
    rfl

def vectors (argv envp apple : List (BitVec 64)) : List (BitVec 64) :=
  argv ++ 0 :: (envp ++ 0 :: (apple ++ [0]))

structure Laid (m : Machine) (argv envp apple : List (BitVec 64)) : Prop where
  count : m.word (slot m.rsp 1) = BitVec.ofNat 64 argv.length
  words : WordsAt m.word (slot m.rsp 2) (vectors argv envp apple)
  argc : argv.length < 2 ^ 31
  fits : (vectors argv envp apple).length < 2 ^ 60
  envp : 0 ∉ envp
  apple : 0 ∉ apple

theorem zStart_frame (dsoHandle ra : BitVec 64) (m : Machine) :
    let s := zStart dsoHandle ra m
    (s.rsp.toNat + 8) % 16 = 0 ∧ s.rbp = m.rsp ∧ s.word s.rbp = 0 ∧ s.rdx = slot m.rsp 2 ∧
      s.rcx = dsoHandle ∧ s.esi = (m.word (slot m.rsp 1)).setWidth 32 ∧
      ∀ k, 0 < k → k < 2 ^ 60 + 2 → s.word (slot m.rsp k) = m.word (slot m.rsp k) := by
  intro s
  have hback : m.rsp + 8 - 8 = m.rsp := BitVec.add_sub_cancel _ _
  have hdown := align_down m.rsp
  have hsp : s.rsp = (m.rsp &&& ~~~15#64) - 16 - 8 := by
    simp only [s, zStart, push, pop, hback]
  have hword : s.word = Function.update (Function.update m.word m.rsp 0) s.rsp ra := by
    simp only [s, zStart, push, pop, hback]
  have hbelow : ∀ k < 2 ^ 60 + 2, slot m.rsp k ≠ s.rsp := by
    intro k hk heq
    rw [hsp, slot] at heq
    generalize m.rsp &&& ~~~15#64 = down at *
    bv_omega
  have habove : ∀ k, 0 < k → k < 2 ^ 60 + 2 → s.word (slot m.rsp k) = m.word (slot m.rsp k) := by
    intro k hpos hk
    have hne : slot m.rsp k ≠ m.rsp := by
      intro heq
      have hnat := congrArg BitVec.toNat heq
      simp only [slot, BitVec.toNat_add, BitVec.toNat_ofNat] at hnat
      omega
    rw [hword, Function.update_of_ne (hbelow k hk), Function.update_of_ne hne]
  have hrbp : s.rbp = m.rsp := by
    simp only [s, zStart, push, pop, hback]
  refine ⟨?_, hrbp, ?_, ?_, ?_, ?_, habove⟩
  · rw [hsp]
    generalize m.rsp &&& ~~~15#64 = down at *
    bv_omega
  · have hzero := hbelow 0 (by omega)
    rw [slot_zero] at hzero
    rw [hword, hrbp, Function.update_of_ne hzero, Function.update_self]
  · simp only [s, zStart, push, pop, hback]
    rfl
  · simp only [s, zStart, push, pop]
  · have hcount : m.rsp + 8 ≠ m.rsp := by bv_omega
    simp only [s, zStart, push, pop, hback, Function.update_of_ne hcount]
    rfl

theorem zzMain_vectors (zMain : BitVec 32 → BitVec 64 → BitVec 64 → BitVec 64 → BitVec 32)
    {fuel : ℕ} {m : Machine} {argv envp apple : List (BitVec 64)}
    (hesi : m.esi = BitVec.ofNat 32 argv.length) (hargc : argv.length < 2 ^ 31)
    (hwords : WordsAt m.word m.rdx (vectors argv envp apple)) (henvp : 0 ∉ envp)
    (happle : 0 ∉ apple) (hfuel : max envp.length apple.length < fuel) :
    let e := slot m.rdx (argv.length + 1)
    let a := slot e (envp.length + 1)
    zzMain zMain fuel m = some ((envp ++ apple).map .printString ++ zInit e a m.rcx ++
        [.main m.esi m.rdx e a] ++ zFini ++ [.exit (zMain m.esi m.rdx e a)]) ∧
      WordsAt m.word m.rdx (argv ++ [0]) ∧ WordsAt m.word e (envp ++ [0]) ∧
      WordsAt m.word a (apple ++ [0]) := by
  intro e a
  have hnull : vectors argv envp apple = (argv ++ [0]) ++ ((envp ++ [0]) ++ (apple ++ [0])) := by
    simp only [vectors, List.append_assoc, List.singleton_append]
  rw [hnull] at hwords
  obtain ⟨hargv, hothers⟩ := wordsAt_append.mp hwords
  rw [List.length_append, List.length_singleton] at hothers
  obtain ⟨henv, happ⟩ := wordsAt_append.mp hothers
  rw [List.length_append, List.length_singleton] at happ
  have hstart : m.rdx + m.esi.signExtend 64 * 8 + 8 = e := by
    have hwide : m.esi.signExtend 64 = BitVec.ofNat 64 argv.length := by
      rw [hesi]
      apply BitVec.eq_of_toInt_eq
      rw [BitVec.toInt_signExtend_of_le (by decide), BitVec.toInt_eq_toNat_cond,
        BitVec.toInt_eq_toNat_cond, BitVec.toNat_ofNat, BitVec.toNat_ofNat]
      omega
    rw [hwide]
    simp only [e, slot]
    bv_omega
  have hafter : slot e envp.length + 8 = a := by
    have hone : slot e envp.length + 8 = slot (slot e envp.length) 1 := rfl
    rw [hone, slot_add]
  have hfirst : printVector m.word fuel e = _ :=
    printVector_vector henvp (Nat.lt_of_le_of_lt (Nat.le_max_left _ _) hfuel) henv
  have hsecond : printVector m.word fuel a = _ :=
    printVector_vector happle (Nat.lt_of_le_of_lt (Nat.le_max_right _ _) hfuel) happ
  refine ⟨?_, hargv, henv, happ⟩
  simp only [zzMain, hstart, hfirst, Option.bind_some, hafter, hsecond, Option.map_some]
  rw [List.map_append]

/-- `z_main` is called with the count and the three vectors that the kernel has put on the stack,
each with its null pointer, after the strings of `envp` and `apple` are printed and the library
is initialised; its result is the exit status. The frame of `zz_main` is aligned, and the chain
of frame pointers ends above it. -/
theorem start_hands_over {m : Machine} {argv envp apple : List (BitVec 64)}
    (h : Laid m argv envp apple) (dsoHandle ra : BitVec 64)
    (zMain : BitVec 32 → BitVec 64 → BitVec 64 → BitVec 64 → BitVec 32) {fuel : ℕ}
    (hfuel : max envp.length apple.length < fuel) :
    let s := zStart dsoHandle ra m
    (∃ argvAt envpAt appleAt,
      zzMain zMain fuel s = some ((envp ++ apple).map .printString ++
        zInit envpAt appleAt dsoHandle ++ [.main s.esi argvAt envpAt appleAt] ++ zFini ++
        [.exit (zMain s.esi argvAt envpAt appleAt)]) ∧
      WordsAt s.word argvAt (argv ++ [0]) ∧ WordsAt s.word envpAt (envp ++ [0]) ∧
      WordsAt s.word appleAt (apple ++ [0])) ∧
    s.esi.toNat = argv.length ∧ (s.rsp.toNat + 8) % 16 = 0 ∧ s.word s.rbp = 0 := by
  intro s
  obtain ⟨haligned, -, hzero, hrdx, hrcx, hesi, hkept⟩ := zStart_frame dsoHandle ra m
  have hargc := h.argc
  have hcount : s.esi = BitVec.ofNat 32 argv.length := by
    rw [hesi, h.count]
    apply BitVec.eq_of_toNat_eq
    rw [BitVec.toNat_setWidth, BitVec.toNat_ofNat, BitVec.toNat_ofNat]
    omega
  have hwords : WordsAt s.word s.rdx (vectors argv envp apple) := by
    rw [hrdx]
    refine h.words.congr fun k hk => ?_
    have hfits := h.fits
    rw [slot_add]
    exact hkept (2 + k) (by omega) (by omega)
  have hvectors := zzMain_vectors zMain hcount hargc hwords h.envp h.apple hfuel
  rw [hrcx] at hvectors
  refine ⟨⟨_, _, _, hvectors⟩, ?_, haligned, hzero⟩
  rw [hcount, BitVec.toNat_ofNat]
  omega

/-- One argument and two strings of the environment, on a stack that is not aligned. -/
def entryStack : Machine where
  rsp := 0x7008
  rbp := 0
  rdi := 0
  esi := 0
  rdx := 0
  rcx := 0
  r8 := 0
  word := (ContextMachine.putWords (fun _ => 0) 0x7010 (1 :: vectors [0x100] [0x200, 0x300] [])).1

theorem entryStack_laid : Laid entryStack [0x100] [0x200, 0x300] [] := by
  have hput : ∀ k (hk : k < 7), entryStack.word (slot 0x7010 k) =
      (1 :: vectors [0x100] [0x200, 0x300] [])[k] := fun k hk =>
    ContextStart.putWords_slot
      (by decide : (1 :: vectors [0x100] [0x200, 0x300] []).length < 2 ^ 60) hk
  refine ⟨hput 0 (by decide), fun k hk => ?_, by decide, by decide, by decide, by decide⟩
  have hslot : slot (slot 0x7008 2) k = slot 0x7010 (k + 1) := by
    have hfirst : (0x7010 : BitVec 64) = slot 0x7008 1 := rfl
    rw [hfirst, slot_add, slot_add]
    exact congrArg (slot 0x7008) (by omega)
  exact (congrArg entryStack.word hslot).trans (hput (k + 1) (Nat.succ_lt_succ hk))

theorem start_hands_over_two :
    let s := zStart 0x9000 0x1000 entryStack
    (∃ argvAt envpAt appleAt,
      zzMain (fun argc _ _ _ => argc) 3 s = some ([.printString 0x200, .printString 0x300] ++
        zInit envpAt appleAt 0x9000 ++ [.main s.esi argvAt envpAt appleAt] ++ zFini ++
        [.exit s.esi]) ∧
      WordsAt s.word argvAt [0x100, 0] ∧ WordsAt s.word envpAt [0x200, 0x300, 0] ∧
      WordsAt s.word appleAt [0]) ∧
    s.esi.toNat = 1 ∧ (s.rsp.toNat + 8) % 16 = 0 ∧ s.word s.rbp = 0 :=
  start_hands_over entryStack_laid 0x9000 0x1000 (fun argc _ _ _ => argc) (by decide)

end ProgramStart
