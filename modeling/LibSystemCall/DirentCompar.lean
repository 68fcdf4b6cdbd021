import LibSystemCall.DirentFill

/-! # The order by name

`z_strncmp` orders C strings by their first `n` bytes. With a length that no name reaches,
`z_opendir_compar` is the order of the entries by name that the sort needs. -/
namespace DirentCompar

open ByteMemory MergeSort StringStrncmp DirentStream DirentFill

structure OrdersStrings (m : Memory) (n : ℕ) : Prop where
  opposite : ∀ s1 s2, 0 < zStrncmp m s1 s2 n ↔ zStrncmp m s2 s1 n < 0
  trans : ∀ s1 s2 s3, zStrncmp m s1 s2 n ≤ 0 → zStrncmp m s2 s3 n ≤ 0 → zStrncmp m s1 s3 n ≤ 0
  equal : ∀ s1 s2 s t, CStringAt m s1 s → CStringAt m s2 t →
    (zStrncmp m s1 s2 n = 0 ↔ (s ++ [0]).take n = (t ++ [0]).take n)
  logged : ∀ s1 s2, (loggedStrncmp m s1 s2 n).1 = zStrncmp m s1 s2 n
  within : ∀ s1 s2 s t, CStringAt m s1 s → CStringAt m s2 t →
    ∀ r ∈ (loggedStrncmp m s1 s2 n).2,
      (s1 ≤ r.1 ∧ r.1 ≤ s1 + s.length) ∧ (s2 ≤ r.2 ∧ r.2 ≤ s2 + t.length)

structure OrdersEntries (m : Memory) : Prop where
  comparator : Comparator (zOpendirCompar m)
  equal : ∀ p q d e, p < 2 ^ 64 → q < 2 ^ 64 → load m p d.reclen = d.bytes →
    load m q e.reclen = e.bytes → WellFormed d → WellFormed e →
    (zOpendirCompar m (leBytes 8 p) (leBytes 8 q) = 0 ↔ d.dName = e.dName)

theorem ordersStrings (m : Memory) {n : ℕ} (hn : 1 ≤ n) : OrdersStrings m n := by
  obtain ⟨n, rfl⟩ := Nat.exists_eq_add_of_le' hn
  have hloop (s1 s2 : ℕ) : zStrncmp m s1 s2 (n + 1) = strncmpLoop m n s1 s2 := rfl
  constructor
  · intro s1 s2
    rw [hloop, hloop, strncmpLoop_swap]
    omega
  · intro s1 s2 s3 h12 h23
    exact strncmpLoop_trans h12 h23
  · intro s1 s2 s t hs ht
    exact strncmpLoop_eq_zero_iff hs ht
  · intro s1 s2
    exact loggedStrncmp_value m s1 s2 (n + 1)
  · intro s1 s2 s t hs ht
    exact loggedLoop_within hs ht

theorem ordersEntries (m : Memory) : OrdersEntries m := by
  constructor
  · exact zOpendirCompar_comparator m
  · intro p q d e hp hq hd he hwd hwe
    rw [zOpendirCompar, leValue_ptr hp, leValue_ptr hq]
    exact zStrncmp_names (name_at hd hwd) (name_at he hwe) hwd

theorem names_are_ordered (m : Memory) {n : ℕ} (hn : 1 ≤ n) :
    OrdersStrings m n ∧ OrdersEntries m :=
  ⟨ordersStrings m hn, ordersEntries m⟩

/-- Strings that begin with the same three bytes. -/
theorem three_bytes_are_ordered :
    OrdersStrings (store (fun _ => 0) 64 [97, 98, 99, 100, 0, 97, 98, 99]) 3 ∧
      OrdersEntries (store (fun _ => 0) 64 [97, 98, 99, 100, 0, 97, 98, 99]) :=
  names_are_ordered _ (by decide)

end DirentCompar
