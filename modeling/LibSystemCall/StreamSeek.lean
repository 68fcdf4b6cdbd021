import LibSystemCall.StreamOffset

/-! # A seek on a descriptor

`_z_sseek` hands `z_sseek` what `z_lseek` returns, an int. -/
namespace StreamSeek

open StreamFile StreamOffset

/-- An error code is not 0, and the kernel's offsets are longs. -/
def Completes : Seek → Prop
  | .failed errno => errno ≠ 0
  | .moved o => -2 ^ 63 ≤ o ∧ o < 2 ^ 63

/-- `z_sseek` on a stream whose `_seek` is `_z_sseek`, when the kernel does `seek`. -/
def sseek (seek : Seek) (s : Stdio) (offset : ℤ) (whence : Whence) : Stdio × ℤ :=
  zSseek (seek.response (.accepted 0)) s offset whence

structure Arrived (o : ℤ) (s s' : Stdio) (ret : ℤ) : Prop where
  ret : ret = o
  noError : s'.fp.has SERR = s.fp.has SERR
  errno : s'.errno = s.errno
  offset : s.fp.has SOPT → s'.fp.offset = o

structure SeekContract (seek : Seek) (s : Stdio) (offset : ℤ) (whence : Whence) : Prop where
  arrives : ∀ o, seek = .moved o → 0 ≤ o →
    Arrived o s (sseek seek s offset whence).1 (sseek seek s offset whence).2
  refuses : (sseek seek s offset whence).2 = -1 → s.fp.has SERR = false →
    (sseek seek s offset whence).1.fp.has SERR = true → ∃ o, seek = .moved o ∧ o < 0

theorem zLseek_moved {o : ℤ} (h : 0 ≤ o) (hsmall : o < 2 ^ 31) : zLseek (.moved o) = o := by
  rw [zLseek, BitVec.toInt_ofInt, Int.bmod_eq_of_le (by omega) (by omega)]

theorem zLseek_lt (seek : Seek) : zLseek seek < 2 ^ 31 := by
  cases seek with
  | failed errno => exact show (-1 : ℤ) < 2 ^ 31 by decide
  | moved o => exact (BitVec.ofInt 32 o).toInt_lt

theorem sseek_ret (seek : Seek) (s : Stdio) (offset : ℤ) (whence : Whence) :
    (sseek seek s offset whence).2 = if zLseek seek < 0 then -1 else zLseek seek := by
  have hret : (seek.response (.accepted 0)).seekRet = zLseek seek := rfl
  unfold sseek zSseek
  rw [hret]
  by_cases hneg : zLseek seek < 0
  · simp only [if_pos hneg]
  · simp only [if_neg hneg]
    split <;> rfl

/-- An offset that is not negative as an int is taken. -/
theorem sseek_arrived {o : ℤ} (h : 0 ≤ zLseek (.moved o)) (s : Stdio) (offset : ℤ)
    (whence : Whence) :
    Arrived (zLseek (.moved o)) s (sseek (.moved o) s offset whence).1
      (sseek (.moved o) s offset whence).2 := by
  have hret : ((Seek.moved o).response (.accepted 0)).seekRet = zLseek (.moved o) := rfl
  have hcode : ((Seek.moved o).response (.accepted 0)).seekErrno = 0 := rfl
  unfold sseek zSseek
  simp only [hret, hcode, if_neg (Int.not_lt.mpr h), if_true]
  by_cases hopt : s.fp.has SOPT
  · rw [if_pos hopt]
    exact ⟨rfl, File.has_set (by decide), rfl, fun _ => rfl⟩
  · rw [if_neg hopt]
    exact ⟨rfl, rfl, rfl, fun hc => absurd hc hopt⟩

theorem sseek_failed {errno : ℤ} (h : errno ≠ 0) (s : Stdio) (offset : ℤ) (whence : Whence) :
    (sseek (.failed errno) s offset whence).1.fp.has SERR = s.fp.has SERR := by
  have hret : ((Seek.failed errno).response (.accepted 0)).seekRet = -1 := rfl
  have hcode : ((Seek.failed errno).response (.accepted 0)).seekErrno = errno := rfl
  unfold sseek zSseek
  simp only [hret, hcode, if_neg h, if_pos (show (-1 : ℤ) < 0 by decide)]
  by_cases hpipe : errno = ESPIPE
  · rw [if_pos hpipe, File.has_clear (by decide)]
    exact File.has_clear (by decide)
  · rw [if_neg hpipe]
    exact File.has_clear (by decide)

/-- A seek does what is promised exactly when the offset it ends at fits an int. -/
theorem seek_contract_iff {seek : Seek} (h : Completes seek) (s : Stdio) (offset : ℤ)
    (whence : Whence) :
    SeekContract seek s offset whence ↔ ∀ o, seek = .moved o → o < 2 ^ 31 := by
  constructor
  · intro hc o ho
    by_contra hlarge
    have harrived := (hc.arrives o ho (by omega)).ret
    have hlt := zLseek_lt seek
    rw [sseek_ret] at harrived
    split at harrived <;> omega
  · intro hsmall
    constructor
    · intro o ho hnonneg
      subst ho
      have hlseek := zLseek_moved hnonneg (hsmall o rfl)
      have harrived := sseek_arrived (by rw [hlseek]; exact hnonneg) s offset whence
      rwa [hlseek] at harrived
    · intro hret hclear hset
      cases seek with
      | failed errno =>
        rw [sseek_failed h, hclear] at hset
        cases hset
      | moved o =>
        refine ⟨o, rfl, ?_⟩
        by_contra hnonneg
        rw [not_lt] at hnonneg
        rw [sseek_ret, zLseek_moved hnonneg (hsmall o rfl)] at hret
        split at hret <;> omega

def unread : Stdio where
  fp := ⟨4096, 0, 0, SRD ||| SOPT, 4096, 1024, 0, true⟩
  mem _ := 0
  errno := 0
  turn := 0
  attempts := []

theorem seek_contract_small : SeekContract (.moved 0x7fffffff) unread 0 .fromEnd := by
  have hcompletes : Completes (.moved 0x7fffffff) := ⟨by decide, by decide⟩
  refine (seek_contract_iff hcompletes unread 0 .fromEnd).mpr ?_
  intro o ho
  cases ho
  decide

/-- The end of a file of two gigabytes is taken for an error, that of four for the start. -/
theorem large_seek_fails :
    Completes (.moved 0x80000000) ∧ (sseek (.moved 0x80000000) unread 0 .fromEnd).2 = -1 ∧
      (sseek (.moved 0x80000000) unread 0 .fromEnd).1.fp.has SERR = true ∧
      (sseek (.moved 0x80000000) unread 0 .fromEnd).1.errno = EINVAL ∧
      ¬ SeekContract (.moved 0x80000000) unread 0 .fromEnd ∧
    Completes (.moved 0x100000000) ∧ (sseek (.moved 0x100000000) unread 0 .fromEnd).2 = 0 ∧
      ¬ SeekContract (.moved 0x100000000) unread 0 .fromEnd := by
  have hfails : (sseek (.moved 0x80000000) unread 0 .fromEnd).2 = -1 := by decide
  have hstart : (sseek (.moved 0x100000000) unread 0 .fromEnd).2 = 0 := by decide
  refine ⟨⟨by decide, by decide⟩, hfails, by decide, by decide, fun h => ?_,
    ⟨by decide, by decide⟩, hstart, fun h => ?_⟩
  · exact absurd (hfails.symm.trans (h.arrives _ rfl (by decide)).ret) (by decide)
  · exact absurd (hstart.symm.trans (h.arrives _ rfl (by decide)).ret) (by decide)

end StreamSeek
