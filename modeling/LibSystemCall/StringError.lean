import LibSystemCall.PrintRoundTrip
import LibSystemCall.StringCopy

/-! # z_strerror_r

A message comes from a table or is put together by `z_errstr`. The result of `z_strncpy` is its
first argument, and `z_strerror_r` compares this address with the length of the buffer. -/
namespace StringError

open ByteMemory Numerals PrintFormat PrintDigits PrintRoundTrip DirentDevname StringCopy
open PrintScratch (nul_not_mem_numeralText)

def ERANGE : ℤ := 34
def EINVAL : ℤ := 22

def UPREFIX : List UInt8 := text "Unknown error"

def zSysErrlist : List String :=
  ["Undefined error: 0", "Operation not permitted", "No such file or directory",
    "No such process", "Interrupted system call", "Input/output error", "Device not configured",
    "Argument list too long", "Exec format error", "Bad file descriptor", "No child processes",
    "Resource deadlock avoided", "Cannot allocate memory", "Permission denied", "Bad address",
    "Block device required", "Resource busy", "File exists", "Cross-device link",
    "Operation not supported by device", "Not a directory", "Is a directory", "Invalid argument",
    "Too many open files in system", "Too many open files", "Inappropriate ioctl for device",
    "Text file busy", "File too large", "No space left on device", "Illegal seek",
    "Read-only file system", "Too many links", "Broken pipe", "Numerical argument out of domain",
    "Result too large", "Resource temporarily unavailable", "Operation now in progress",
    "Operation already in progress", "Socket operation on non-socket",
    "Destination address required", "Message too long", "Protocol wrong type for socket",
    "Protocol not available", "Protocol not supported", "Socket type not supported",
    "Operation not supported", "Protocol family not supported",
    "Address family not supported by protocol family", "Address already in use",
    "Can't assign requested address", "Network is down", "Network is unreachable",
    "Network dropped connection on reset", "Software caused connection abort",
    "Connection reset by peer", "No buffer space available", "Socket is already connected",
    "Socket is not connected", "Can't send after socket shutdown",
    "Too many references: can't splice", "Operation timed out", "Connection refused",
    "Too many levels of symbolic links", "File name too long", "Host is down",
    "No route to host", "Directory not empty", "Too many processes", "Too many users",
    "Disc quota exceeded", "Stale NFS file handle", "Too many levels of remote in path",
    "RPC struct is bad", "RPC version wrong", "RPC prog. not avail", "Program version wrong",
    "Bad procedure for program", "No locks available", "Function not implemented",
    "Inappropriate file type or format", "Authentication error", "Need authenticator",
    "Device power is off", "Device error", "Value too large to be stored in data type",
    "Bad executable (or shared library)", "Bad CPU type in executable",
    "Shared library version mismatch", "Malformed Mach-o file", "Operation canceled",
    "Identifier removed", "No message of desired type", "Illegal byte sequence",
    "Attribute not found", "Bad message", "EMULTIHOP (Reserved)",
    "No message available on STREAM", "ENOLINK (Reserved)", "No STREAM resources",
    "Not a STREAM", "Protocol error", "STREAM ioctl timeout",
    "Operation not supported on socket", "Policy not found", "State not recoverable",
    "Previous owner died", "Interface output queue is full"]

def zSysNerr : ℕ := zSysErrlist.length

def message (errnum : BitVec 32) : List UInt8 := text (zSysErrlist.getD errnum.toInt.toNat "")

def decimalDigit (i : ℕ) : UInt8 := (text "0123456789").getD i 0

/-- The digits of a `z_uint8`, at most three, each one stored in front of those before. -/
def errDigits : ℕ → UInt8 → List UInt8 → List UInt8
  | 0, _, t => t
  | rounds + 1, uerr, t =>
    let t := decimalDigit (uerr % 10).toNat :: t
    if uerr / 10 ≠ 0 then errDigits rounds (uerr / 10) t else t

/-- The magnitude as far as it fits a `z_uint8`. -/
def uerr (num : BitVec 32) : UInt8 :=
  UInt8.ofBitVec ((if num.toInt ≥ 0 then num else -num).setWidth 8)

/-- What `z_errstr` stores from `t` on to the end of `tmp`. -/
def errTail (num : BitVec 32) : List UInt8 :=
  let t := errDigits 3 (uerr num) [0]
  let t := if num.toInt < 0 then '-'.toUInt8 :: t else t
  ':'.toUInt8 :: ' '.toUInt8 :: t

def count (len : BitVec 32) : ℕ := (len.signExtend 64).toNat

def zErrstr (fuel : ℕ) (num : BitVec 32) ( uprefix : List UInt8) (buf : Object)
    (len : BitVec 32) : Option Object :=
  let buf := zStrncpy (objectOf ( uprefix ++ [0])) (count len) buf 0 0
  zStrncat fuel buf (objectOf (errTail num)) (count len)

structure ErrorResult where
  ret : ℤ
  buf : Object

/-- `strerrbuf` is the address of `buf`. -/
def zStrerrorR (fuel : ℕ) (errnum : BitVec 32) (strerrbuf : BitVec 64) (buf : Object)
    (buflen : BitVec 32) : Option ErrorResult :=
  if errnum.toInt < 0 ∨ errnum.toInt ≥ zSysNerr then
    (zErrstr fuel errnum UPREFIX buf buflen).map fun buf => ⟨EINVAL, buf⟩
  else
    let buf := zStrncpy (objectOf (message errnum ++ [0])) (count buflen) buf 0 0
    let dest := strerrbuf
    some ⟨if dest.toInt ≥ buflen.toInt then ERANGE else 0, buf⟩

def Known (errnum : BitVec 32) : Prop := 0 ≤ errnum.toInt ∧ errnum.toInt < zSysNerr

instance (errnum : BitVec 32) : Decidable (Known errnum) := inferInstanceAs (Decidable (_ ∧ _))

def errorText (errnum : BitVec 32) : List UInt8 :=
  if Known errnum then message errnum else UPREFIX ++ text ": " ++ signedText errnum.toInt

def errorCode (errnum : BitVec 32) (size : ℕ) : ℤ :=
  if Known errnum then if (errorText errnum).length < size then 0 else ERANGE else EINVAL

structure Described (errnum : BitVec 32) (size : ℕ) (r : ErrorResult) : Prop where
  inside : ∀ i ∈ r.buf.written, i < size
  content : CStringAt r.buf.bytes 0 ((errorText errnum).take (size - 1))
  ret : r.ret = errorCode errnum size

/-- A known message fits, and so does the address, as a length. An unknown number is printed as
its low eight bits: they fit, and are the number, or as much of it as there is room for. -/
def Works (errnum : BitVec 32) (strerrbuf : BitVec 64) (size : ℕ) : Prop :=
  if Known errnum then (message errnum).length < size ∧ strerrbuf.toInt < size
  else
    15 + (minus errnum).length + (numeralText 10 (errnum.toInt.natAbs % 256)).length < size ∧
      numeralText 10 (errnum.toInt.natAbs % 256) =
        (digitsOf errnum).take (size - 16 - (minus errnum).length)

theorem count_eq {len : BitVec 32} (h : 0 ≤ len.toInt) : count len = len.toInt.toNat := by
  have hint : (len.signExtend 64).toInt = len.toInt :=
    BitVec.toInt_signExtend_of_le (by decide)
  have hnonneg : ¬ (len.signExtend 64).toInt < 0 := by omega
  rw [count, ← natAbs_toInt_of_nonneg hnonneg, hint]
  omega

theorem message_noNul (errnum : BitVec 32) : 0 ∉ message errnum := by
  apply entry_noNul
  unfold zSysErrlist
  repeat refine List.forall_mem_cons.mpr ⟨literal_noNul (by decide +kernel), ?_⟩
  exact List.forall_mem_nil _

theorem decimalDigit_eq : ∀ d < 10, decimalDigit d = digitChar d := by decide

section Digits
variable {u : UInt8}

theorem div_ten_eq_zero : u / 10 = 0 ↔ u.toNat < 10 := by
  rw [← UInt8.toNat_inj, UInt8.toNat_div]
  exact Nat.div_eq_zero_iff.trans (by simp)

theorem last_digit (u : UInt8) : decimalDigit (u % 10).toNat = digitChar (u.toNat % 10) := by
  rw [UInt8.toNat_mod]
  exact decimalDigit_eq _ (Nat.mod_lt _ (by decide))

theorem errDigits_one (rounds : ℕ) (h : u.toNat < 10) (t : List UInt8) :
    errDigits (rounds + 1) u t = numeralText 10 u.toNat ++ t := by
  have hlast : ¬ u / 10 ≠ 0 := not_not.mpr (div_ten_eq_zero.mpr h)
  rw [errDigits, if_neg hlast, last_digit, Nat.mod_eq_of_lt h, numeralText_of_lt h]
  rfl

theorem errDigits_eq (rounds : ℕ) (h : u.toNat < 10 ^ (rounds + 1)) (t : List UInt8) :
    errDigits (rounds + 1) u t = numeralText 10 u.toNat ++ t := by
  induction rounds generalizing u t with
  | zero => exact errDigits_one 0 h t
  | succ rounds ih =>
    by_cases hlt : u.toNat < 10
    · exact errDigits_one _ hlt t
    · have hmore : u / 10 ≠ 0 := mt div_ten_eq_zero.mp hlt
      have hdiv : (u / 10).toNat = u.toNat / 10 := UInt8.toNat_div u 10
      have hsmall : (u / 10).toNat < 10 ^ (rounds + 1) := by
        rw [hdiv]
        rw [pow_succ] at h
        omega
      rw [errDigits, last_digit, if_pos hmore, ih hsmall, hdiv,
        numeralText_of_le (by decide) (Nat.le_of_not_lt hlt), List.append_assoc,
        List.singleton_append]

end Digits

theorem uerr_toNat (num : BitVec 32) : (uerr num).toNat = num.toInt.natAbs % 256 := by
  rw [uerr, UInt8.toNat_ofBitVec, BitVec.toNat_setWidth]
  by_cases h : num.toInt < 0
  · rw [if_neg (by omega), natAbs_toInt_of_neg h]
  · rw [if_pos (by omega), natAbs_toInt_of_nonneg h]

def printed (num : BitVec 32) : List UInt8 :=
  text ": " ++ (minus num ++ numeralText 10 (num.toInt.natAbs % 256))

theorem errTail_eq (num : BitVec 32) : errTail num = printed num ++ [0] := by
  have hu := (uerr num).toNat_lt
  have hcolon : text ": " = [':'.toUInt8, ' '.toUInt8] := by decide
  rw [errTail, errDigits_eq 2 (by omega), uerr_toNat, printed, hcolon, minus]
  split <;> simp

section
variable {errnum buflen : BitVec 32} (strerrbuf : BitVec 64) (mem : Memory)

theorem zStrerrorR_known (fuel : ℕ) (hk : Known errnum) (hlen : 0 ≤ buflen.toInt) :
    zStrerrorR fuel errnum strerrbuf ⟨mem, []⟩ buflen =
      some ⟨if strerrbuf.toInt ≥ buflen.toInt then ERANGE else 0,
        zStrncpy (objectOf (message errnum ++ [0])) buflen.toInt.toNat ⟨mem, []⟩ 0 0⟩ := by
  have hrange : ¬ (errnum.toInt < 0 ∨ errnum.toInt ≥ zSysNerr) := by
    rintro (h | h)
    · exact absurd hk.1 (by omega)
    · exact absurd hk.2 (by omega)
  rw [zStrerrorR, if_neg hrange, count_eq hlen]

theorem zStrerrorR_unknown (fuel : ℕ) (hk : ¬ Known errnum) (hlen : 0 ≤ buflen.toInt) :
    zStrerrorR fuel errnum strerrbuf ⟨mem, []⟩ buflen =
      (zStrncat fuel (zStrncpy (objectOf (UPREFIX ++ [0])) buflen.toInt.toNat ⟨mem, []⟩ 0 0)
        (objectOf (printed errnum ++ [0])) buflen.toInt.toNat).map fun buf => ⟨EINVAL, buf⟩ := by
  have hrange : errnum.toInt < 0 ∨ errnum.toInt ≥ zSysNerr := by
    unfold Known at hk
    omega
  rw [zStrerrorR, if_pos hrange, zErrstr, count_eq hlen, errTail_eq]

theorem known_iff (hk : Known errnum) (hlen : 1 ≤ buflen.toInt) :
    (∃ fuel r, zStrerrorR fuel errnum strerrbuf ⟨mem, []⟩ buflen = some r ∧
        Described errnum buflen.toInt.toNat r) ↔
      (message errnum).length < buflen.toInt.toNat ∧ strerrbuf.toInt < buflen.toInt.toNat := by
  have htext : errorText errnum = message errnum := if_pos hk
  have hcode (size : ℕ) :
      errorCode errnum size = if (message errnum).length < size then 0 else ERANGE := by
    rw [errorCode, if_pos hk, htext]
  have hstring := objectOf_string (message_noNul errnum)
  constructor
  · rintro ⟨fuel, r, hrun, hd⟩
    rw [zStrerrorR_known strerrbuf mem fuel hk (by omega)] at hrun
    obtain rfl := Option.some.inj hrun
    have hfits : (message errnum).length < buflen.toInt.toNat := by
      by_contra hlong
      have hu : ((message errnum).take (buflen.toInt.toNat - 1)).length < buflen.toInt.toNat := by
        rw [List.length_take]
        omega
      have hnul := string_nul hd.content
      rw [htext] at hnul
      exact zStrncpy_full hstring (by omega) hu hnul
    refine ⟨hfits, ?_⟩
    have hret := hd.ret
    rw [hcode, if_pos hfits] at hret
    by_contra haddress
    have herange : ERANGE ≠ 0 := by decide
    rw [if_pos (by omega)] at hret
    exact herange hret
  · rintro ⟨hfits, haddress⟩
    refine ⟨0, _, zStrerrorR_known strerrbuf mem 0 hk (by omega), ?_, ?_, ?_⟩
    · intro i hi
      rcases mem_copyLoop_written.mp hi with h | h
      · exact absurd h List.not_mem_nil
      · omega
    · rw [htext, List.take_of_length_le (by omega)]
      exact zStrncpy_string hstring hfits
    · rw [hcode, if_pos hfits]
      exact if_neg (by omega)

theorem prefix_length : UPREFIX.length = 13 ∧ (text ": ").length = 2 := by decide

theorem prefix_noNul : 0 ∉ UPREFIX ∧ 0 ∉ text ": " := by decide

theorem printed_noNul (num : BitVec 32) : 0 ∉ printed num := by
  have hminus : 0 ∉ minus num := by
    unfold minus
    split <;> decide
  have hdigits := nul_not_mem_numeralText (b := 10) (by decide) (by decide)
    (num.toInt.natAbs % 256)
  rw [printed, List.mem_append, List.mem_append]
  rintro (h | h | h)
  · exact prefix_noNul.2 h
  · exact hminus h
  · exact hdigits h

theorem length_printed (num : BitVec 32) : (printed num).length =
    2 + (minus num).length + (numeralText 10 (num.toInt.natAbs % 256)).length := by
  rw [printed, List.length_append, List.length_append, prefix_length.2, Nat.add_assoc]

theorem take_errorText (hk : ¬ Known errnum) {size : ℕ}
    (hroom : 15 + (minus errnum).length < size) :
    (errorText errnum).take (size - 1) = UPREFIX ++ (text ": " ++
      (minus errnum ++ (digitsOf errnum).take (size - 16 - (minus errnum).length))) := by
  obtain ⟨hunknown, hcolon⟩ := prefix_length
  have hrest : size - 1 - 13 - 2 - (minus errnum).length =
      size - 16 - (minus errnum).length := by omega
  rw [errorText, if_neg hk, signedText_eq, List.append_assoc, List.take_append,
    List.take_append, List.take_append, List.take_of_length_le (by omega),
    List.take_of_length_le (by omega), List.take_of_length_le (by omega), hunknown, hcolon, hrest]

theorem prefix_copied {size : ℕ} (h : 13 < size) :
    CStringAt (zStrncpy (objectOf (UPREFIX ++ [0])) size ⟨mem, []⟩ 0 0).bytes 0 UPREFIX :=
  zStrncpy_string (objectOf_string prefix_noNul.1) (by rw [prefix_length.1]; exact h)

/-- In a buffer that the prefix does not fit, the number is appended somewhere behind it. -/
theorem short_buffer {size fuel : ℕ} {o : Object} (hpos : 0 < size) (h : size ≤ 13)
    (hrun : zStrncat fuel (zStrncpy (objectOf (UPREFIX ++ [0])) size ⟨mem, []⟩ 0 0)
      (objectOf (printed errnum ++ [0])) size = some o) : ∃ i ∈ o.written, size ≤ i := by
  obtain ⟨cp, hnul, -, rfl⟩ := zStrncat_some hrun
  have hstring := objectOf_string prefix_noNul.1
  refine ⟨cp, ?_, ?_⟩
  · rw [mem_appendLoop_written (objectOf_string (printed_noNul errnum))]
    exact .inr (by omega)
  · by_contra hcp
    have hfull : (zStrncpy (objectOf (UPREFIX ++ [0])) size ⟨mem, []⟩ 0 0).bytes (0 + cp) ≠ 0 :=
      zStrncpy_full hstring (by rw [prefix_length.1]; exact h) (by omega)
    rw [Nat.zero_add] at hfull
    exact hfull hnul

theorem mem_printed_written {size i : ℕ} :
    i ∈ (appendLoop (objectOf (printed errnum ++ [0])) size
        (zStrncpy (objectOf (UPREFIX ++ [0])) size ⟨mem, []⟩ 0 0) UPREFIX.length 0).written ↔
      i < size ∨ 13 ≤ i ∧ i < 13 + min size ((printed errnum).length + 1) := by
  rw [mem_appendLoop_written (objectOf_string (printed_noNul errnum)), mem_zStrncpy_written,
    prefix_length.1]
  simp

theorem unknown_iff (hk : ¬ Known errnum) (hlen : 1 ≤ buflen.toInt) :
    (∃ fuel r, zStrerrorR fuel errnum strerrbuf ⟨mem, []⟩ buflen = some r ∧
        Described errnum buflen.toInt.toNat r) ↔
      15 + (minus errnum).length + (numeralText 10 (errnum.toInt.natAbs % 256)).length <
          buflen.toInt.toNat ∧
        numeralText 10 (errnum.toInt.natAbs % 256) =
          (digitsOf errnum).take (buflen.toInt.toNat - 16 - (minus errnum).length) := by
  have hprinted := length_printed errnum
  have hpos : 0 < buflen.toInt.toNat := by omega
  have hrun (fuel : ℕ) := zStrerrorR_unknown strerrbuf mem fuel hk
    (show 0 ≤ buflen.toInt by omega)
  generalize buflen.toInt.toNat = size at *
  constructor
  · rintro ⟨fuel, r, hr, hd⟩
    rw [hrun] at hr
    obtain ⟨o, ho, rfl⟩ := Option.map_eq_some_iff.mp hr
    have hbig : 13 < size := by
      by_contra hsmall
      obtain ⟨i, hi, hout⟩ := short_buffer mem hpos (by omega) ho
      exact absurd (hd.inside i hi) (by omega)
    obtain ⟨cp, hnul, hfirst, rfl⟩ := zStrncat_some ho
    obtain rfl := first_nul (prefix_copied mem hbig) hnul hfirst
    have hfits : (printed errnum).length + 14 ≤ size := by
      have hlast := hd.inside (13 + min size ((printed errnum).length + 1) - 1)
        ((mem_printed_written mem).mpr (.inr (by omega)))
      omega
    refine ⟨by omega, ?_⟩
    have hcontent := (appended_string (prefix_copied mem hbig)
      (objectOf_string (printed_noNul errnum)) (by omega)).unique hd.content
    rw [take_errorText hk (by omega), printed] at hcontent
    exact List.append_cancel_left (List.append_cancel_left (List.append_cancel_left hcontent))
  · rintro ⟨hroom, hdigits⟩
    have hbig : 13 < size := by omega
    have hcat := hrun size
    rw [zStrncat_string (prefix_copied mem hbig) (by rw [prefix_length.1]; exact hbig),
      Option.map_some] at hcat
    have hstring := appended_string (n := size) (prefix_copied mem hbig)
      (objectOf_string (printed_noNul errnum)) (by omega)
    refine ⟨size, _, hcat, ?_, ?_, ?_⟩
    · intro i hi
      rcases (mem_printed_written mem).mp hi with h | h
      · exact h
      · omega
    · rw [take_errorText hk (by omega), ← hdigits]
      exact hstring
    · exact (if_neg hk).symm

end

theorem strerror_r_iff (mem : Memory) (strerrbuf : BitVec 64) (errnum : BitVec 32)
    {buflen : BitVec 32} (hlen : 1 ≤ buflen.toInt) :
    (∃ fuel r, zStrerrorR fuel errnum strerrbuf ⟨mem, []⟩ buflen = some r ∧
        Described errnum buflen.toInt.toNat r) ↔
      Works errnum strerrbuf buflen.toInt.toNat := by
  unfold Works
  split
  case isTrue hk => exact known_iff strerrbuf mem hk hlen
  case isFalse hk => exact unknown_iff strerrbuf mem hk hlen

/-- 200 has no message, and its decimal fits 20 bytes. -/
theorem strerror_r_iff_unknown :
    (∃ fuel r, zStrerrorR fuel 200 0x100000 ⟨fun _ => 1, []⟩ 20 = some r ∧
        Described 200 (20 : BitVec 32).toInt.toNat r) ↔
      Works 200 0x100000 (20 : BitVec 32).toInt.toNat :=
  strerror_r_iff (fun _ => 1) 0x100000 200 (by decide)

/-- The message of 1 fits 2048 bytes, and the result is ERANGE. -/
theorem fitting_message_refused :
    (∀ fuel, ∃ r, zStrerrorR fuel 1 0x100000 ⟨fun _ => 1, []⟩ 2048 = some r ∧ r.ret = ERANGE) ∧
      ¬ ∀ (mem : Memory) (strerrbuf : BitVec 64) (errnum buflen : BitVec 32), 1 ≤ buflen.toInt →
        ∃ fuel r, zStrerrorR fuel errnum strerrbuf ⟨mem, []⟩ buflen = some r ∧
          Described errnum buflen.toInt.toNat r := by
  have hrun (fuel : ℕ) := zStrerrorR_known 0x100000 (fun _ => 1) fuel
    (show Known 1 by decide) (show 0 ≤ (2048 : BitVec 32).toInt by decide)
  constructor
  · intro fuel
    exact ⟨_, hrun fuel, by decide⟩
  · intro h
    obtain ⟨fuel, r, hr, hd⟩ := h (fun _ => 1) 0x100000 1 2048 (by decide)
    obtain rfl := Option.some.inj ((hrun fuel).symm.trans hr)
    have hcode : errorCode 1 (2048 : BitVec 32).toInt.toNat = 0 := by decide
    have hret := hd.ret
    rw [hcode] at hret
    exact absurd hret (by decide)

end StringError
