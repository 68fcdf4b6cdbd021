import LibSystemCall.ContextSwitch

/-! # Contexts linked one after another

A made context whose start function has returned goes on to the context it is linked to. -/
namespace ContextChain

open ContextMachine ContextStart ContextSwitch

/-- The arguments of one call of `z_makecontext`. -/
structure Task where
  ucp : BitVec 64
  start : BitVec 64
  args : List (BitVec 64)

/-- What a start function does from its entry to its return, and the answers of the kernel to
the `z_setcontext` behind it. -/
structure Function where
  body : Machine → Machine
  answers : Answers

/-- The last slot above the saved stack pointer has the context. -/
def slots (t : Task) : ℕ := 2 + max t.args.length 6 + max t.args.length 6 % 2

def InStack (c : Ucontext) (p : BitVec 64) : Prop :=
  c.stack.sp.toNat ≤ p.toNat ∧ p.toNat + 8 ≤ c.stack.sp.toNat + c.stack.size.toNat

structure Fits (m : Machine) (t : Task) : Prop where
  ucp : t.ucp ≠ 0
  own : (m.ctx t.ucp).mcontext = mcontextOf t.ucp
  sp : (m.ctx t.ucp).stack.sp ≠ 0
  size : MINSIGSTKSZ ≤ (m.ctx t.ucp).stack.size
  argc : (t.args.length : ℤ) ≤ NCARGS
  above : (m.ctx t.ucp).stack.sp.toNat + (m.ctx t.ucp).stack.size.toNat ≤ 2 ^ 64
  room : 8 * max t.args.length 6 + 47 ≤ (m.ctx t.ucp).stack.size.toNat

def Apart (m : Machine) (t u : Task) : Prop :=
  t.ucp ≠ u.ucp ∧ ∀ p, InStack (m.ctx t.ucp) p → ¬InStack (m.ctx u.ucp) p

theorem Apart.symm {m : Machine} {t u : Task} (h : Apart m t u) : Apart m u t :=
  ⟨h.1.symm, fun p hu ht => h.2 p ht hu⟩

def SameButState (m m' : Machine) : Prop :=
  ∀ u, m'.ctx u = { m.ctx u with state := (m'.ctx u).state }

theorem SameButState.trans {m m' m'' : Machine} (h : SameButState m m')
    (h' : SameButState m' m'') : SameButState m m'' := by
  intro u
  rw [h' u, h u]

theorem startTop_state (c : Ucontext) (state : StateField → BitVec 64)
    (args : List (BitVec 64)) : startTop { c with state := state } args = startTop c args := rfl

theorem startBase_slot (c : Ucontext) (t : Task) :
    startBase c t.args = slot (startTop c t.args) (slots t) := rfl

theorem SameButState.startTop {m m' : Machine} (h : SameButState m m') (u : BitVec 64)
    (args : List (BitVec 64)) : startTop (m'.ctx u) args = startTop (m.ctx u) args := by
  rw [h u, startTop_state]

variable {m : Machine}

theorem Fits.inStack {t : Task} (h : Fits m t) {k : ℕ} (hk : k ≤ slots t) :
    InStack (m.ctx t.ucp) (slot (startTop (m.ctx t.ucp) t.args) k) :=
  slots_inside h.above h.room hk

theorem Fits.accepted {t : Task} (h : Fits m t) : ¬Refused (m.ctx t.ucp) t.args.length :=
  ContextStart.accepted h.sp h.size h.argc

theorem Fits.same {m' : Machine} {t : Task} (h : Fits m t) (hsame : SameButState m m') :
    Fits m' t := by
  obtain ⟨hucp, hown, hsp, hsize, hargc, habove, hroom⟩ := h
  refine ⟨hucp, ?_, ?_, ?_, hargc, ?_, ?_⟩ <;> rwa [hsame t.ucp]

/-- What a start function keeps: `%r12` with the word it points to, the link of its context,
what is saved in the context `last`, and the contexts before that with their stacks. -/
structure Returns (m : Machine) (last : BitVec 64) (t : Task) (later : List Task)
    (entered returned : Machine) : Prop where
  r12 : returned.reg .r12 = entered.reg .r12
  base : returned.word (entered.reg .r12) = entered.word (entered.reg .r12)
  link : (returned.ctx t.ucp).link = (entered.ctx t.ucp).link
  saved : (returned.ctx last).state = (entered.ctx last).state
  state : ∀ u ∈ later, (returned.ctx u.ucp).state = (entered.ctx u.ucp).state
  links : ∀ u ∈ later, (returned.ctx u.ucp).link = (entered.ctx u.ucp).link
  words : ∀ u ∈ later, ∀ p, InStack (m.ctx u.ucp) p → returned.word p = entered.word p

variable {last : BitVec 64}

/-- The null pointer is 0. -/
def head (last : BitVec 64) : List Task → BitVec 64
  | [] => last
  | t :: _ => t.ucp

def Linked (m : Machine) (last : BitVec 64) : List Task → Prop
  | [] => True
  | t :: ts => (m.ctx t.ucp).link = head last ts ∧ Linked m last ts

theorem Linked.congr {m m' : Machine} {ts : List Task}
    (h : ∀ t ∈ ts, (m'.ctx t.ucp).link = (m.ctx t.ucp).link) (hlinked : Linked m last ts) :
    Linked m' last ts := by
  induction ts with
  | nil => trivial
  | cons t ts ih =>
    refine ⟨(h t List.mem_cons_self).trans hlinked.1, ih (fun u hu => ?_) hlinked.2⟩
    exact h u (List.mem_cons_of_mem _ hu)

section

variable [CodeAddresses]

def Ready (m m' : Machine) (t : Task) : Prop := Made (m.ctx t.ucp) m' t.ucp t.start t.args

theorem Ready.frame {m' m'' : Machine} {t : Task} (h : Ready m m' t) (hfits : Fits m t)
    (hstate : (m''.ctx t.ucp).state = (m'.ctx t.ucp).state)
    (hword : ∀ p, InStack (m.ctx t.ucp) p → m''.word p = m'.word p) : Ready m m'' t := by
  obtain ⟨hrip, hrsp, hr12, hstart, harguments, hucp⟩ := h
  refine ⟨hstate ▸ hrip, hstate ▸ hrsp, hstate ▸ hr12, ?_, fun i hi => ?_, ?_⟩
  · rw [hword _ (hfits.inStack (by simp only [slots]; omega)), hstart]
  · rw [hword _ (hfits.inStack (by simp only [slots]; omega)), harguments i hi]
  · rw [startBase_slot, hword _ (hfits.inStack (Nat.le_refl _)), ← startBase_slot, hucp]

theorem Ready.same {m' m'' : Machine} {t : Task} (h : Ready m' m'' t)
    (hsame : SameButState m m') : Ready m m'' t := by
  have htop := hsame.startTop t.ucp t.args
  have hbase : startBase (m'.ctx t.ucp) t.args = startBase (m.ctx t.ucp) t.args := by
    rw [startBase, startBase, htop]
  obtain ⟨hrip, hrsp, hr12, hstart, harguments, hucp⟩ := h
  exact ⟨hrip, htop ▸ hrsp, hbase ▸ hr12, htop ▸ hstart, htop ▸ harguments, hbase ▸ hucp⟩

theorem Ready.entered {m' : Machine} {t : Task} (h : Ready m m' t) (hfits : Fits m t)
    (a : Answers) : Entered (zCtxStart (zSetcontext a m' t.ucp)) t.ucp t.start t.args :=
  (Made.entered h hfits.argc a).2

end

local instance : CodeAddresses := placed

def first : Task := ⟨0x5000, 0x4000, [1, 2, 3, 4, 5, 6, 7]⟩
def second : Task := ⟨0x6000, 0x4100, []⟩

end ContextChain
