import LibSystemCall.PrintFormat

/-! # Sequences of print calls

The four entry points share `outbuf`, `outptr` and `lastfd`. What they print is accounted
for at the return of every call. -/
namespace PrintCalls

open PrintBuffer PrintFormat

def STDERR_FILENO : ℤ := 2

def zPrintf (s : PrintState) (fmt : List UInt8) (ap : List VaArg) : Option PrintState :=
  kdoprnt s STDERR_FILENO fmt ap

def zVprintf (s : PrintState) (fmt : List UInt8) (ap : List VaArg) : Option PrintState :=
  kdoprnt s STDERR_FILENO fmt ap

def zFdprintf (s : PrintState) (fd : ℤ) (fmt : List UInt8) (ap : List VaArg) :
    Option PrintState :=
  kdoprnt s fd fmt ap

def zVfdprintf (s : PrintState) (fd : ℤ) (fmt : List UInt8) (ap : List VaArg) :
    Option PrintState :=
  kdoprnt s fd fmt ap

/-- A format string that does not end inside a directive, with arguments that match it. -/
structure Request where
  fmt : List UInt8
  args : List VaArg
  noNul : 0 ∉ fmt
  complete : endsInsideDirective .literal fmt = false
  matching : Matching (conversions .literal fmt) args

inductive Call where
  | printf (r : Request)
  | vprintf (r : Request)
  | fdprintf (fd : ℤ) (r : Request)
  | vfdprintf (fd : ℤ) (r : Request)

def Request.memory (r : Request) : List UInt8 := r.fmt ++ [0]

def Request.text (r : Request) : List UInt8 := (formatted r.memory r.args).getD []

theorem Request.formatted_eq (r : Request) : formatted r.memory r.args = some r.text := by
  have h := (formattedFrom_isSome .literal r.fmt r.args r.noNul).mpr ⟨r.complete, r.matching⟩
  obtain ⟨t, ht⟩ := Option.isSome_iff_exists.mp h
  have hr : formatted r.memory r.args = some t := ht
  rw [Request.text, hr, Option.getD_some]

namespace Call

def run (s : PrintState) : Call → Option PrintState
  | printf r => zPrintf s r.memory r.args
  | vprintf r => zVprintf s r.memory r.args
  | fdprintf fd r => zFdprintf s fd r.memory r.args
  | vfdprintf fd r => zVfdprintf s fd r.memory r.args

def fd : Call → ℤ
  | printf _ | vprintf _ => STDERR_FILENO
  | fdprintf fd _ | vfdprintf fd _ => fd

def text : Call → List UInt8
  | printf r | vprintf r | fdprintf _ r | vfdprintf _ r => r.text

def output (c : Call) : List (ℤ × UInt8) := c.text.map (Prod.mk c.fd)

end Call

def runCalls (s : PrintState) : List Call → Option PrintState
  | [] => some s
  | c :: cs => (c.run s).bind fun s => runCalls s cs

/-- What was written, followed by what is pending, is the output of all calls so far. -/
def Accounted (s : PrintState) (done : List Call) : Prop :=
  ∃ rest : List (ℤ × UInt8), rest.map Prod.snd = pending s ∧
    s.written ++ rest = done.flatMap Call.output

/-- At the return of every call the output so far is accounted for, and `outptr` has not
passed the end of `outbuf`. -/
def ExactAtEveryReturn (calls : List Call) : Prop :=
  ∀ done, done <+: calls → ∃ s, runCalls initial done = some s ∧
    Accounted s done ∧ s.highest ≤ OUTBUFSIZE

/-- Nothing is pending between two calls, and nothing is flushed for the descriptor -1. -/
structure NothingLost (calls : List Call) : Prop where
  settled : ∀ c ∈ calls.dropLast, OUTBUFSIZE ∣ (unbroken c.text).length
  described : ∀ c ∈ calls, c.fd = -1 →
    c.text.length < OUTBUFSIZE ∧ ∀ b ∈ c.text, ¬ isBreak b

/-! One call prints its text from an empty buffer; a sequence delivers call by call. -/

theorem Call.run_eq (s : PrintState) (c : Call) :
    c.run s = some (putAll { s with outptr := 0 } c.fd c.text) := by
  have h := fun (fd : ℤ) (r : Request) => (kdoprnt_eq s fd r.memory r.args).trans
    (congrArg (Option.map (putAll { s with outptr := 0 } fd)) r.formatted_eq)
  cases c with
  | printf r => exact h STDERR_FILENO r
  | vprintf r => exact h STDERR_FILENO r
  | fdprintf fd r => exact h fd r
  | vfdprintf fd r => exact h fd r

theorem runCalls_concat (s : PrintState) (done : List Call) (c : Call) :
    runCalls s (done ++ [c]) = (runCalls s done).bind c.run := by
  induction done generalizing s with
  | nil => simp [runCalls]
  | cons d done ih =>
    rw [List.cons_append, runCalls, runCalls, Option.bind_assoc]
    congr 1
    funext u
    exact ih u

/-- The part of a call's output that reaches `z_write` before the call returns. -/
def Call.sent (c : Call) : List (ℤ × UInt8) := delivered c.fd c.text

def Call.held (c : Call) : List UInt8 := c.text.drop (c.text.length - unsent c.text)

theorem Call.printed (s : PrintState) (c : Call) :
    ∃ s', c.run s = some s' ∧ s'.written = s.written ++ c.sent ∧ pending s' = c.held ∧
      (s.highest ≤ OUTBUFSIZE → s'.highest ≤ OUTBUFSIZE) := by
  have h := printed_all (s := { s with outptr := 0 }) c.fd rfl c.text
  exact ⟨_, c.run_eq s, h.log, h.held, h.high⟩

theorem runCalls_delivers (done : List Call) :
    ∃ s, runCalls initial done = some s ∧ s.written = done.flatMap Call.sent ∧
      s.highest ≤ OUTBUFSIZE := by
  induction done using List.reverseRecOn with
  | nil => exact ⟨initial, rfl, rfl, Nat.zero_le _⟩
  | append_singleton done c ih =>
    obtain ⟨s, hs, hw, hh⟩ := ih
    obtain ⟨s', hs', hw', -, hh'⟩ := c.printed s
    refine ⟨s', by rw [runCalls_concat, hs, Option.bind_some, hs'], ?_, hh' hh⟩
    rw [hw', hw, List.flatMap_append, List.flatMap_singleton]

theorem runCalls_last (done : List Call) (c : Call) :
    ∃ s, runCalls initial (done ++ [c]) = some s ∧
      s.written = done.flatMap Call.sent ++ c.sent ∧ pending s = c.held ∧
      s.highest ≤ OUTBUFSIZE := by
  obtain ⟨s, hs, hw, hh⟩ := runCalls_delivers done
  obtain ⟨s', hs', hw', hp, hh'⟩ := c.printed s
  exact ⟨s', by rw [runCalls_concat, hs, Option.bind_some, hs'], by rw [hw', hw], hp, hh' hh⟩

/-! The bytes are counted: what a call sends is a prefix of its output, so nothing is
lost exactly when the lengths agree. -/

theorem Call.sent_prefix (c : Call) : c.sent <+: c.output := by
  unfold Call.sent delivered Call.output
  split
  · exact List.nil_prefix
  · exact (List.take_prefix _ _).map _

theorem Call.length_held (c : Call) : c.held.length = unsent c.text := by
  have := unsent_le c.text
  rw [Call.held, List.length_drop]
  omega

theorem Call.length_output (c : Call) : c.output.length = c.text.length := List.length_map _

theorem Call.length_sent (c : Call) :
    c.sent.length = if c.fd = -1 then 0 else c.text.length - unsent c.text := by
  unfold Call.sent delivered
  split
  · rfl
  · rw [List.length_map, List.length_take]
    omega

theorem Call.sent_eq_output (c : Call) :
    c.sent = c.output ↔ unsent c.text = 0 ∧ (c.fd = -1 → c.text = []) := by
  have hlen := c.length_sent
  have hout := c.length_output
  have hle := unsent_le c.text
  constructor
  · intro h
    rw [h, hout] at hlen
    by_cases hfd : c.fd = -1
    · rw [if_pos hfd] at hlen
      exact ⟨by omega, fun _ => List.length_eq_zero_iff.mp hlen⟩
    · rw [if_neg hfd] at hlen
      exact ⟨by omega, fun h => absurd h hfd⟩
  · rintro ⟨hun, hfd⟩
    apply c.sent_prefix.eq_of_length
    rw [hlen, hout, hun, Nat.sub_zero]
    split
    case isTrue h => rw [hfd h, List.length_nil]
    case isFalse h => rfl

theorem flatMap_length_le {α β : Type} {f g : α → List β} (h : ∀ a, f a <+: g a) (l : List α) :
    (l.flatMap f).length ≤ (l.flatMap g).length := by
  induction l with
  | nil => exact le_rfl
  | cons a l ih =>
    have := (h a).length_le
    simp only [List.flatMap_cons, List.length_append]
    omega

theorem flatMap_eq_of_length_le {α β : Type} {f g : α → List β} (h : ∀ a, f a <+: g a)
    {l : List α} (hl : (l.flatMap g).length ≤ (l.flatMap f).length) : ∀ a ∈ l, f a = g a := by
  induction l with
  | nil => simp
  | cons a l ih =>
    have ha := (h a).length_le
    have hrest := flatMap_length_le h l
    simp only [List.flatMap_cons, List.length_append] at hl
    intro b hb
    rcases List.mem_cons.mp hb with rfl | hb
    · exact (h b).eq_of_length_le (by omega)
    · exact ih (by omega) b hb

theorem accounted_concat {s : PrintState} {done : List Call} {c : Call}
    (hw : s.written = done.flatMap Call.sent ++ c.sent) (hp : pending s = c.held) :
    Accounted s (done ++ [c]) ↔
      (∀ d ∈ done, d.sent = d.output) ∧ (c.fd = -1 → unsent c.text = c.text.length) := by
  have hlen := c.length_sent
  have hout := c.length_output
  have hle := unsent_le c.text
  constructor
  · rintro ⟨rest, hrest, heq⟩
    have hcount := congrArg List.length heq
    have hheld : rest.length = unsent c.text := by
      rw [← c.length_held, ← hp, ← hrest, List.length_map]
    have hdone := flatMap_length_le Call.sent_prefix done
    rw [hw, List.flatMap_append, List.flatMap_singleton] at hcount
    simp only [List.length_append, hheld, hlen, hout] at hcount
    constructor
    · apply flatMap_eq_of_length_le Call.sent_prefix
      split at hcount <;> omega
    · intro hfd
      rw [if_pos hfd] at hcount
      omega
  · rintro ⟨hdone, hfd⟩
    refine ⟨c.held.map (Prod.mk c.fd), ?_, ?_⟩
    · simp [hp, Function.comp_def]
    · have hout : c.sent ++ c.held.map (Prod.mk c.fd) = c.output := by
        unfold Call.sent delivered Call.held Call.output
        split
        case isTrue h => simp [hfd h]
        case isFalse h => rw [← List.map_append, List.take_append_drop]
      have hflat : done.flatMap Call.sent = done.flatMap Call.output :=
        List.flatMap_congr hdone
      rw [hw, List.append_assoc, hout, hflat, List.flatMap_append, List.flatMap_singleton]

theorem NothingLost.sent {calls : List Call} (h : NothingLost calls) {c : Call}
    (hc : c ∈ calls.dropLast) : c.sent = c.output := by
  have hun : unsent c.text = 0 := Nat.mod_eq_zero_of_dvd (h.settled c hc)
  refine c.sent_eq_output.mpr ⟨hun, fun hfd => ?_⟩
  have hall := (unsent_eq_length c.text).mpr (h.described c (List.mem_of_mem_dropLast hc) hfd)
  exact List.length_eq_zero_iff.mp (hall.symm.trans hun)

theorem exact_at_every_return_iff (calls : List Call) :
    ExactAtEveryReturn calls ↔ NothingLost calls := by
  constructor
  · intro h
    rcases List.eq_nil_or_concat' calls with rfl | ⟨done, c, rfl⟩
    · exact ⟨by simp, by simp⟩
    obtain ⟨s, hs, hw, hp, -⟩ := runCalls_last done c
    obtain ⟨s', hs', hacc, -⟩ := h _ List.prefix_rfl
    rw [hs, Option.some.injEq] at hs'
    subst hs'
    obtain ⟨hdone, hlast⟩ := (accounted_concat hw hp).mp hacc
    have hsent := fun d hd => (Call.sent_eq_output d).mp (hdone d hd)
    constructor
    · intro d hd
      rw [List.dropLast_concat] at hd
      exact Nat.dvd_of_mod_eq_zero (hsent d hd).1
    · intro d hd hfd
      rcases List.mem_append.mp hd with hd | hd
      · rw [(hsent d hd).2 hfd]
        exact ⟨by decide, by simp⟩
      · obtain rfl := List.mem_singleton.mp hd
        exact (unsent_eq_length d.text).mp (hlast hfd)
  · intro h done hpre
    rcases List.eq_nil_or_concat' done with rfl | ⟨before, c, rfl⟩
    · exact ⟨initial, rfl, ⟨[], rfl, rfl⟩, Nat.zero_le _⟩
    obtain ⟨s, hs, hw, hp, hh⟩ := runCalls_last before c
    refine ⟨s, hs, (accounted_concat hw hp).mpr ⟨fun d hd => ?_, fun hfd => ?_⟩, hh⟩
    · obtain ⟨after, rfl⟩ := hpre
      apply h.sent
      rw [List.append_assoc, List.singleton_append, List.dropLast_append_cons]
      exact List.mem_append_left _ hd
    · have hc : c ∈ calls := hpre.subset (List.mem_append_right _ List.mem_cons_self)
      exact (unsent_eq_length c.text).mpr (h.described c hc hfd)

def letter (b : UInt8) (hb : b ≠ 0 ∧ b ≠ '%'.toUInt8) : Request where
  fmt := [b]
  args := []
  noNul := by simpa using hb.1.symm
  complete := by simp [endsInsideDirective, hb.2]
  matching := by simp [conversions, Matching]

def aThenB : List Call :=
  [.printf (letter 'a'.toUInt8 (by decide)), .printf (letter 'b'.toUInt8 (by decide))]

theorem second_call_drops_a : ¬ ExactAtEveryReturn aThenB := by
  intro h
  obtain ⟨s, hs, ⟨rest, hrest, heq⟩, -⟩ := h aThenB List.prefix_rfl
  have hrun : (runCalls initial aThenB).map (fun s => (s.written, pending s)) =
      some ([], ['b'.toUInt8]) := by decide
  rw [hs, Option.map_some, Option.some.injEq, Prod.mk.injEq] at hrun
  rw [hrun.1, List.nil_append] at heq
  rw [hrun.2, heq] at hrest
  exact absurd hrest (by decide)

end PrintCalls
