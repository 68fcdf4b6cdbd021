import LibSystemCall.StringError

/-! # z_strsignal_r

The number is put together backwards in `tmp`, and its length decides whether it is appended to
the name. Where it is appended, and the comparison, take the result of `z_strncpy` for the length
of the name; it is the address of the buffer. -/
namespace StringSignal

open ByteMemory Numerals PrintFormat PrintDigits PrintRoundTrip DirentDevname StringCopy
open PrintScan (zStrlen)
open StringError (UPREFIX ERANGE EINVAL decimalDigit decimalDigit_eq count count_eq)

def NSIG : ℤ := 32
def TMPSIZE : ℕ := 19 + 1 + 2 + 1

def zSysSiglist : List String :=
  ["Signal 0", "Hangup", "Interrupt", "Quit", "Illegal instruction", "Trace/BPT trap",
    "Abort trap", "EMT trap", "Floating point exception", "Killed", "Bus error",
    "Segmentation fault", "Bad system call", "Broken pipe", "Alarm clock", "Terminated",
    "Urgent I/O condition", "Suspended (signal)", "Suspended", "Continued", "Child exited",
    "Stopped (tty input)", "Stopped (tty output)", "I/O possible", "Cputime limit exceeded",
    "Filesize limit exceeded", "Virtual timer expired", "Profiling timer expired",
    "Window size changes", "Information request", "User defined signal 1",
    "User defined signal 2"]

/-- The loop over the digits: the string in `tmp` from its start to `t`. A negative remainder
would index in front of the digits, and more digits than `tmp` holds are not stored. -/
def signalDigits : ℕ → BitVec 32 → List UInt8 → Option (List UInt8)
  | 0, _, _ => none
  | room + 1, signum, tmp =>
    let digit := (signum.srem 10).toInt
    if digit < 0 then none
    else
      let tmp := tmp ++ [decimalDigit digit.toNat]
      let signum := signum.sdiv 10
      if signum ≠ 0 then signalDigits room signum tmp else some tmp

def storeAll (buf : Object) (p : ℕ) : List UInt8 → Object
  | [] => buf
  | b :: bs => storeAll (buf.put p b) (p + 1) bs

structure SignalResult where
  ret : ℤ
  buf : Object

/-- `num > 0 && num < NSIG` -/
def Named (num : BitVec 32) : Prop := 0 < num.toInt ∧ num.toInt < NSIG

instance (num : BitVec 32) : Decidable (Named num) := inferInstanceAs (Decidable (_ ∧ _))

def signalName (num : BitVec 32) : List UInt8 :=
  if Named num then text (zSysSiglist.getD num.toInt.toNat "") else UPREFIX

/-- `strsignalbuf` is the address of `buf`. -/
def zStrsignalR (num : BitVec 32) (strsignalbuf : BitVec 64) (buf : Object) (buflen : BitVec 32) :
    Option SignalResult :=
  let signum := if num.toInt < 0 then -num else num
  (signalDigits TMPSIZE signum []).map fun tmp =>
    let tmp := if num.toInt < 0 then tmp ++ ['-'.toUInt8] else tmp
    let suffixlen := zStrlen tmp + 2
    let limit := ((buflen - suffixlen).signExtend 64).toNat
    let buf := zStrncpy (objectOf (signalName num ++ [0])) (count buflen) buf 0 0
    let n := strsignalbuf.toNat
    let retval := if Named num then if n ≥ limit then ERANGE else 0 else EINVAL
    -- the characters of `tmp` are taken from its end
    if n < limit then
      ⟨retval, storeAll buf n (':'.toUInt8 :: ' '.toUInt8 :: tmp.reverse ++ [0])⟩
    else ⟨retval, buf⟩

def suffix (num : BitVec 32) : List UInt8 := text ": " ++ signedText num.toInt

def signalText (num : BitVec 32) : List UInt8 := signalName num ++ suffix num

structure Signalled (num : BitVec 32) (size : ℕ) (r : SignalResult) : Prop where
  inside : ∀ i ∈ r.buf.written, i < size
  fits : (signalText num).length < size → CStringAt r.buf.bytes 0 (signalText num) ∧
    r.ret = if Named num then 0 else EINVAL
  tooShort : ¬ (signalText num).length < size → Named num → r.ret = ERANGE

/-- `buflen - suffixlen`, as a `z_uint64`. -/
def limitOf (num : BitVec 32) (size : ℕ) : ℕ :=
  if (suffix num).length ≤ size then size - (suffix num).length
  else 2 ^ 64 - ((suffix num).length - size)

/-- The magnitude is an int, and the address of the buffer happens to be right as the length of
the name, where there is room for the suffix; where there is none, it keeps the suffix out of the
buffer, or the result is EINVAL in any case and the suffix stays inside. -/
def Works (num : BitVec 32) (strsignalbuf : BitVec 64) (size : ℕ) : Prop :=
  num.toInt ≠ -2 ^ 31 ∧
    if (signalText num).length < size then strsignalbuf.toNat = (signalName num).length
    else limitOf num size ≤ strsignalbuf.toNat ∨ ¬ Named num ∧ (suffix num).length ≤ size

section
variable {signum : BitVec 32} {v : ℕ}

theorem srem_ten (hv : signum.toInt = v) : (signum.srem 10).toInt = (v % 10 : ℕ) := by
  have hten : (10 : BitVec 32).toInt = (10 : ℕ) := by decide
  rw [BitVec.toInt_srem, hv, hten]
  exact (Int.ofNat_tmod v 10).symm

theorem sdiv_ten (hv : signum.toInt = v) : (signum.sdiv 10).toInt = (v / 10 : ℕ) := by
  have hten : (10 : BitVec 32).toInt = (10 : ℕ) := by decide
  rw [BitVec.toInt_sdiv_of_ne_or_ne _ _ (.inr (by decide)), hv, hten]
  exact (Int.ofNat_tdiv v 10).symm

theorem sdiv_ten_eq_zero (hv : signum.toInt = v) : signum.sdiv 10 = 0 ↔ v < 10 := by
  have hzero : (0 : BitVec 32).toInt = 0 := by decide
  rw [← BitVec.toInt_inj, sdiv_ten hv, hzero]
  omega

theorem signalDigits_step (room : ℕ) (hv : signum.toInt = v) (tmp : List UInt8) :
    signalDigits (room + 1) signum tmp =
      if signum.sdiv 10 ≠ 0 then
        signalDigits room (signum.sdiv 10) (tmp ++ [digitChar (v % 10)])
      else some (tmp ++ [digitChar (v % 10)]) := by
  have hdigit : decimalDigit ((v % 10 : ℕ) : ℤ).toNat = digitChar (v % 10) := by
    rw [Int.toNat_natCast]
    exact decimalDigit_eq _ (Nat.mod_lt _ (by decide))
  have hrem : ¬ ((v % 10 : ℕ) : ℤ) < 0 := by omega
  rw [signalDigits]
  simp only [srem_ten hv, hdigit, if_neg hrem]

theorem signalDigits_one (room : ℕ) (hv : signum.toInt = v) (h : v < 10) (tmp : List UInt8) :
    signalDigits (room + 1) signum tmp = some (tmp ++ (numeralText 10 v).reverse) := by
  have hlast : ¬ signum.sdiv 10 ≠ 0 := not_not.mpr ((sdiv_ten_eq_zero hv).mpr h)
  rw [signalDigits_step room hv, if_neg hlast, Nat.mod_eq_of_lt h, numeralText_of_lt h]
  rfl

theorem signalDigits_eq (room : ℕ) (hv : signum.toInt = v) (h : v < 10 ^ (room + 1))
    (tmp : List UInt8) :
    signalDigits (room + 1) signum tmp = some (tmp ++ (numeralText 10 v).reverse) := by
  induction room generalizing signum v tmp with
  | zero => exact signalDigits_one 0 hv h tmp
  | succ room ih =>
    by_cases hlt : v < 10
    · exact signalDigits_one _ hv hlt tmp
    · have hmore : signum.sdiv 10 ≠ 0 := mt (sdiv_ten_eq_zero hv).mp hlt
      have hsmall : v / 10 < 10 ^ (room + 1) := by
        rw [pow_succ] at h
        omega
      rw [signalDigits_step _ hv, if_pos hmore, ih (sdiv_ten hv) hsmall,
        numeralText_of_le (by decide) (Nat.le_of_not_lt hlt), List.reverse_concat,
        List.append_assoc, List.singleton_append]

end

theorem signalDigits_min : signalDigits TMPSIZE (BitVec.intMin 32) [] = none := by decide

section
variable {num buflen : BitVec 32}

theorem signum_toInt (hmin : num.toInt ≠ -2 ^ 31) :
    (if num.toInt < 0 then -num else num).toInt = num.toInt.natAbs := by
  have hne : num ≠ BitVec.intMin 32 := by
    rintro rfl
    exact hmin (by decide)
  split
  case isTrue hneg =>
    rw [BitVec.toInt_neg_of_ne_intMin hne]
    omega
  case isFalse => omega

theorem number_eq (hmin : num.toInt ≠ -2 ^ 31) :
    (signalDigits TMPSIZE (if num.toInt < 0 then -num else num) []).map
        (fun tmp => if num.toInt < 0 then tmp ++ ['-'.toUInt8] else tmp) =
      some (signedText num.toInt).reverse := by
  have hsmall : num.toInt.natAbs < 10 ^ (22 + 1) :=
    (natAbs_toInt_lt num).trans (by decide)
  have hdigits := signalDigits_eq 22 (signum_toInt hmin) hsmall []
  rw [show TMPSIZE = 22 + 1 from rfl, hdigits, Option.map_some, signedText, List.reverse_append,
    List.nil_append]
  split <;> simp

theorem length_suffix (num : BitVec 32) :
    (suffix num).length = (signedText num.toInt).length + 2 := by
  have hcolon : (text ": ").length = 2 := by decide
  rw [suffix, List.length_append, hcolon, Nat.add_comm]

theorem length_suffix_le (num : BitVec 32) : (suffix num).length ≤ 13 := by
  have hlen := length_signedText num
  rw [length_suffix]
  omega

theorem limit_eq (hlen : 1 ≤ buflen.toInt) :
    ((buflen - (zStrlen (signedText num.toInt).reverse + 2)).signExtend 64).toNat =
      limitOf num buflen.toInt.toNat := by
  have hshort := length_suffix_le num
  have hbuf := BitVec.toInt_lt (x := buflen)
  have hsuffix : zStrlen (signedText num.toInt).reverse + 2 =
      BitVec.ofNat 32 (suffix num).length := by
    rw [zStrlen, List.length_reverse, length_suffix, BitVec.ofNat_add]
    rfl
  have hsub : (buflen - BitVec.ofNat 32 (suffix num).length).toInt =
      buflen.toInt - (suffix num).length := by
    rw [BitVec.toInt_sub, PrintText.toInt_ofNat_small (by omega)]
    exact Int.bmod_eq_of_le (by omega) (by omega)
  have hext : ((buflen - BitVec.ofNat 32 (suffix num).length).signExtend 64).toInt =
      buflen.toInt - (suffix num).length :=
    (BitVec.toInt_signExtend_of_le (by decide)).trans hsub
  rw [hsuffix, limitOf]
  rw [BitVec.toInt_eq_toNat_cond] at hext
  split at hext <;> split <;> omega

end

section
variable {buf : Object} {p i : ℕ} {bs : List UInt8}

theorem mem_storeAll_written :
    i ∈ (storeAll buf p bs).written ↔ i ∈ buf.written ∨ p ≤ i ∧ i < p + bs.length := by
  induction bs generalizing buf p with
  | nil =>
    rw [storeAll, List.length_nil]
    exact ⟨.inl, fun h => h.resolve_right (by omega)⟩
  | cons b bs ih =>
    have hmore : p ≤ i ∧ i < p + (bs.length + 1) ↔ i = p ∨ p + 1 ≤ i ∧ i < p + 1 + bs.length := by
      omega
    rw [storeAll, ih, mem_put_written, List.length_cons, hmore, or_assoc, or_left_comm]

theorem storeAll_outside (h : i < p ∨ p + bs.length ≤ i) :
    (storeAll buf p bs).bytes i = buf.bytes i := by
  induction bs generalizing buf p with
  | nil => rfl
  | cons b bs ih =>
    rw [List.length_cons] at h
    rw [storeAll, ih (by omega)]
    exact put_bytes_ne b (by omega)

theorem load_storeAll : load (storeAll buf p bs).bytes p bs.length = bs := by
  induction bs generalizing buf p with
  | nil => rfl
  | cons b bs ih =>
    rw [List.length_cons, load_cons, storeAll, ih, storeAll_outside (.inl (Nat.lt_succ_self p)),
      put_bytes_self]

end

section
variable {num buflen : BitVec 32} (strsignalbuf : BitVec 64) (mem : Memory)

def named (num : BitVec 32) (size : ℕ) (mem : Memory) : Object :=
  zStrncpy (objectOf (signalName num ++ [0])) size ⟨mem, []⟩ 0 0

theorem zStrsignalR_eq (hmin : num.toInt ≠ -2 ^ 31) (hlen : 1 ≤ buflen.toInt) :
    zStrsignalR num strsignalbuf ⟨mem, []⟩ buflen =
      some ⟨if Named num then
            if strsignalbuf.toNat ≥ limitOf num buflen.toInt.toNat then ERANGE else 0
          else EINVAL,
        if strsignalbuf.toNat < limitOf num buflen.toInt.toNat then
          storeAll (named num buflen.toInt.toNat mem) strsignalbuf.toNat (suffix num ++ [0])
        else named num buflen.toInt.toNat mem⟩ := by
  have hcolon : text ": " = [':'.toUInt8, ' '.toUInt8] := by decide
  obtain ⟨tmp, htmp, hnumber⟩ := Option.map_eq_some_iff.mp (number_eq hmin)
  rw [zStrsignalR, htmp, Option.map_some]
  simp only [hnumber, limit_eq hlen, count_eq (show 0 ≤ buflen.toInt by omega),
    List.reverse_reverse]
  rw [Option.some.injEq]
  split
  · rw [suffix, hcolon]
    rfl
  · rfl

theorem zStrsignalR_min (hmin : num.toInt = -2 ^ 31) (buf : Object) :
    zStrsignalR num strsignalbuf buf buflen = none := by
  have hnum : num = BitVec.intMin 32 := by
    rw [← BitVec.toInt_inj, hmin]
    decide
  have hsignum : (if num.toInt < 0 then -num else num) = BitVec.intMin 32 := by
    rw [hnum]
    decide
  rw [zStrsignalR]
  simp only [hsignum, signalDigits_min, Option.map_none]

theorem signalName_noNul (num : BitVec 32) : 0 ∉ signalName num := by
  unfold signalName
  split
  · apply entry_noNul
    unfold zSysSiglist
    repeat refine List.forall_mem_cons.mpr ⟨literal_noNul (by decide +kernel), ?_⟩
    exact List.forall_mem_nil _
  · decide

theorem suffix_noNul (num : BitVec 32) : 0 ∉ suffix num := by
  have hcolon : 0 ∉ text ": " := by decide
  rw [suffix, List.mem_append]
  rintro (h | h)
  · exact hcolon h
  · exact nul_not_mem_signedText num h

theorem length_signalText (num : BitVec 32) :
    (signalText num).length = (signalName num).length + (suffix num).length :=
  List.length_append

theorem suffix_pos (num : BitVec 32) : 0 < (suffix num).length := by
  rw [length_suffix]
  omega

theorem named_string {size : ℕ} (h : (signalName num).length < size) :
    CStringAt (named num size mem).bytes 0 (signalName num) :=
  zStrncpy_string (objectOf_string (signalName_noNul num)) h

theorem mem_named_written {size i : ℕ} : i ∈ (named num size mem).written ↔ i < size := by
  rw [named, mem_zStrncpy_written]
  simp

theorem load_suffix (buf : Object) (n : ℕ) (num : BitVec 32) :
    CStringAt (storeAll buf n (suffix num ++ [0])).bytes n (suffix num) := by
  constructor
  · have hload : load (storeAll buf n (suffix num ++ [0])).bytes n (suffix num ++ [0]).length =
        suffix num ++ [0] := load_storeAll
    rwa [List.length_append, List.length_singleton] at hload
  · exact suffix_noNul num

theorem suffix_inside {size n : ℕ} (h : (signalName num).length < size)
    (hn : n ≤ (signalName num).length) :
    CStringAt (storeAll (named num size mem) n (suffix num ++ [0])).bytes 0
      ((signalName num).take n ++ suffix num) := by
  have hlen : ((signalName num).take n).length = n := List.length_take_of_le hn
  have hbelow : load (storeAll (named num size mem) n (suffix num ++ [0])).bytes 0 n =
      load (named num size mem).bytes 0 n := by
    apply load_congr
    intro i hi
    exact storeAll_outside (.inl (by omega))
  have hname := string_load (named_string mem h)
  have hsplit : (signalName num).length = n + ((signalName num).length - n) := by omega
  rw [hsplit, load_add] at hname
  have hfront : load (named num size mem).bytes 0 n = (signalName num).take n := by
    rw [← hname, List.take_left' (length_load _ _ _)]
  apply cStringAt_append
  · rw [hlen, hbelow, hfront]
  · exact fun hmem => signalName_noNul num (List.mem_of_mem_take hmem)
  · rw [hlen, Nat.zero_add]
    exact load_suffix _ n num

/-- Behind the name it is not seen. -/
theorem suffix_behind {size n : ℕ} (h : (signalName num).length < size)
    (hn : (signalName num).length < n) :
    CStringAt (storeAll (named num size mem) n (suffix num ++ [0])).bytes 0
      (signalName num) := by
  have hname := named_string mem h
  constructor
  · refine (load_congr fun i hi => ?_).trans hname.bytes
    exact storeAll_outside (.inl (by omega))
  · exact hname.noNul

theorem fits_iff {size n : ℕ} (h : (signalText num).length < size) :
    CStringAt (if n < limitOf num size then storeAll (named num size mem) n (suffix num ++ [0])
      else named num size mem).bytes 0 (signalText num) ↔ n = (signalName num).length := by
  have hlen := length_signalText num
  have hpos := suffix_pos num
  have hlimit : limitOf num size = size - (suffix num).length := if_pos (by omega)
  constructor
  · intro htext
    by_contra hne
    have hother : ∃ t, CStringAt (if n < limitOf num size
        then storeAll (named num size mem) n (suffix num ++ [0])
        else named num size mem).bytes 0 t ∧ t.length ≠ (signalText num).length := by
      split
      · by_cases hn : n < (signalName num).length
        · refine ⟨_, suffix_inside mem (by omega) hn.le, ?_⟩
          rw [List.length_append, List.length_take]
          omega
        · exact ⟨_, suffix_behind mem (by omega) (by omega), by omega⟩
      · exact ⟨_, named_string mem (by omega), by omega⟩
    obtain ⟨t, ht, hdiffers⟩ := hother
    exact hdiffers (congrArg List.length (ht.unique htext))
  · rintro rfl
    have hname : (signalName num).length < size := by omega
    have htext := suffix_inside mem hname le_rfl
    rw [List.take_length] at htext
    rw [if_pos (by omega)]
    exact htext

/-- The suffix stays inside where `buflen - suffixlen` is not negative, or it is not stored. -/
theorem inside_iff {size n : ℕ} :
    (∀ i ∈ (if n < limitOf num size then storeAll (named num size mem) n (suffix num ++ [0])
        else named num size mem).written, i < size) ↔
      limitOf num size ≤ n ∨ (suffix num).length ≤ size := by
  constructor
  · intro hinside
    by_contra hout
    have hlast := hinside (n + (suffix num).length)
    rw [if_pos (by omega), mem_storeAll_written, List.length_append, List.length_singleton]
      at hlast
    have := hlast (.inr (by omega))
    omega
  · rintro h i hi
    split at hi
    case isTrue hn =>
      have hsize : (suffix num).length ≤ size := h.resolve_left (by omega)
      rw [limitOf, if_pos hsize] at hn
      rw [mem_storeAll_written, mem_named_written, List.length_append,
        List.length_singleton] at hi
      omega
    case isFalse => exact (mem_named_written mem).mp hi

end

theorem strsignal_r_iff (mem : Memory) (strsignalbuf : BitVec 64) (num : BitVec 32)
    {buflen : BitVec 32} (hlen : 1 ≤ buflen.toInt) :
    (∃ r, zStrsignalR num strsignalbuf ⟨mem, []⟩ buflen = some r ∧
        Signalled num buflen.toInt.toNat r) ↔ Works num strsignalbuf buflen.toInt.toNat := by
  unfold Works
  by_cases hmin : num.toInt = -2 ^ 31
  · rw [zStrsignalR_min strsignalbuf hmin]
    constructor
    · rintro ⟨r, hr, -⟩
      cases hr
    · exact fun h => absurd hmin h.1
  rw [zStrsignalR_eq strsignalbuf mem hmin hlen, and_iff_right hmin]
  have hlong := length_signalText num
  have herange : (0 : ℤ) ≠ ERANGE := by decide
  generalize buflen.toInt.toNat = size
  constructor
  · rintro ⟨r, hr, hs⟩
    obtain rfl := Option.some.inj hr
    split
    case isTrue hfits => exact (fits_iff mem hfits).mp (hs.fits hfits).1
    case isFalse hshort =>
      have hinside := (inside_iff mem).mp hs.inside
      by_cases hlimit : limitOf num size ≤ strsignalbuf.toNat
      · exact .inl hlimit
      · refine .inr ⟨fun hnamed => ?_, hinside.resolve_left hlimit⟩
        have hret := hs.tooShort hshort hnamed
        simp only [if_pos hnamed, if_neg hlimit] at hret
        exact herange hret
  · intro h
    refine ⟨_, rfl, ?_⟩
    split at h
    case isTrue hfits =>
      have hlimit : ¬ strsignalbuf.toNat ≥ limitOf num size := by
        rw [limitOf, if_pos (by omega)]
        omega
      constructor
      · exact (inside_iff mem).mpr (.inr (by omega))
      · intro _
        refine ⟨(fits_iff mem hfits).mpr h, ?_⟩
        rw [if_neg hlimit]
      · exact fun hshort => absurd hfits hshort
    case isFalse hshort =>
      constructor
      · exact (inside_iff mem).mpr (h.imp_right And.right)
      · exact fun hfits => absurd hfits hshort
      · intro _ hnamed
        have hlimit := h.resolve_right fun k => k.1 hnamed
        simp only [if_pos hnamed, if_pos hlimit]

/-- No room for the name of 2 and the number in four bytes. -/
theorem strsignal_r_iff_short :
    (∃ r, zStrsignalR 2 0x100000 ⟨fun _ => 1, []⟩ 4 = some r ∧
        Signalled 2 (4 : BitVec 32).toInt.toNat r) ↔
      Works 2 0x100000 (4 : BitVec 32).toInt.toNat :=
  strsignal_r_iff (fun _ => 1) 0x100000 2 (by decide)

/-- "Interrupt: 2" fits 64 bytes, and the result is ERANGE. -/
theorem fitting_name_refused :
    (∃ r, zStrsignalR 2 0x100000 ⟨fun _ => 1, []⟩ 64 = some r ∧ r.ret = ERANGE) ∧
      ¬ ∀ (mem : Memory) (strsignalbuf : BitVec 64) (num buflen : BitVec 32),
        1 ≤ buflen.toInt → ∃ r, zStrsignalR num strsignalbuf ⟨mem, []⟩ buflen = some r ∧
          Signalled num buflen.toInt.toNat r := by
  have hsize : (64 : BitVec 32).toInt.toNat = 64 := by decide
  have hnamed : Named 2 := by decide
  have hname : (signalName 2).length = 9 := by decide
  have hsuffix := length_suffix_le 2
  have hfits : (signalText 2).length < 64 := by
    rw [length_signalText, hname]
    omega
  have haddress : (0x100000 : BitVec 64).toNat ≥ limitOf 2 64 := by
    have hvalue : (0x100000 : BitVec 64).toNat = 1048576 := by decide
    rw [hvalue, limitOf, if_pos (by omega)]
    omega
  have hrun := zStrsignalR_eq 0x100000 (fun _ => 1) (show (2 : BitVec 32).toInt ≠ -2 ^ 31 by decide)
    (show 1 ≤ (64 : BitVec 32).toInt by decide)
  rw [hsize] at hrun
  simp only [if_pos hnamed, if_pos haddress] at hrun
  refine ⟨⟨_, hrun, rfl⟩, ?_⟩
  intro h
  obtain ⟨r, hr, hs⟩ := h (fun _ => 1) 0x100000 2 64 (by decide)
  obtain rfl := Option.some.inj (hrun.symm.trans hr)
  have hret := (hs.fits (by rw [hsize]; exact hfits)).2
  rw [if_pos hnamed] at hret
  exact absurd hret (by decide)

end StringSignal
