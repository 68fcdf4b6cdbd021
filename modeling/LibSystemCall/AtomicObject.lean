import LibSystemCall.EventSimulation
import Mathlib.Data.List.Basic
import Mathlib.Logic.Function.Basic

/-! # Objects with operations that take effect at one point

A sequential object answers each operation from its value. Its atomic system lets any number
of threads use it at once: a thread calls an operation, the operation takes effect in one
step between the call and the return, and the thread returns with the answer of that step. A
program that simulates the atomic system is linearizable to the object. -/
namespace AtomicObject

open GuardedSystem

/-- `Allows v i o r`: thread `i` may get the answer `r` to the operation `o` from value `v`. -/
structure Object (ι υ ο ρ : Type*) where
  Allows : υ → ι → ο → ρ → Prop
  after : υ → ι → ο → ρ → υ

inductive Phase (ο ρ : Type*) where
  | outside
  | called (op : ο)
  | done (op : ο) (answer : ρ)
  deriving DecidableEq

structure State (ι υ ο ρ : Type*) where
  value : υ
  phase : ι → Phase ο ρ

inductive Event (ι ο ρ : Type*) where
  | call (i : ι) (op : ο)
  | commit (i : ι) (op : ο) (answer : ρ)
  | ret (i : ι) (op : ο) (answer : ρ)
  deriving DecidableEq

variable {ι υ ο ρ : Type*}

def Enabled (O : Object ι υ ο ρ) (s : State ι υ ο ρ) : Event ι ο ρ → Prop
  | .call i _ => s.phase i = .outside
  | .commit i op answer => s.phase i = .called op ∧ O.Allows s.value i op answer
  | .ret i op answer => s.phase i = .done op answer

variable [DecidableEq ι]

def next (O : Object ι υ ο ρ) (s : State ι υ ο ρ) : Event ι ο ρ → State ι υ ο ρ
  | .call i op => { s with phase := Function.update s.phase i (.called op) }
  | .commit i op answer =>
    ⟨O.after s.value i op answer, Function.update s.phase i (.done op answer)⟩
  | .ret i _ _ => { s with phase := Function.update s.phase i .outside }

def start (v : υ) : State ι υ ο ρ := ⟨v, fun _ => .outside⟩

def atomicSystem (O : Object ι υ ο ρ) (v : υ) : System (State ι υ ο ρ) (Event ι ο ρ) :=
  ⟨(· = start v), Enabled O, next O⟩

def commits : List (Event ι ο ρ) → List (ι × ο × ρ)
  | [] => []
  | .commit i op answer :: es => (i, op, answer) :: commits es
  | .call _ _ :: es | .ret _ _ _ :: es => commits es

/-- A sequential history: each answer is one that the object gives at that point. -/
def Legal (O : Object ι υ ο ρ) : υ → List (ι × ο × ρ) → Prop
  | _, [] => True
  | v, (i, op, answer) :: ops => O.Allows v i op answer ∧ Legal O (O.after v i op answer) ops

def final (O : Object ι υ ο ρ) : υ → List (ι × ο × ρ) → υ
  | v, [] => v
  | v, (i, op, answer) :: ops => final O (O.after v i op answer) ops

theorem commits_legal {O : Object ι υ ο ρ} {v : υ} {es : List (Event ι ο ρ)} :
    ∀ {s : State ι υ ο ρ}, ValidTrace (atomicSystem O v) anyStep s es →
      Legal O s.value (commits es) ∧
        (runTrace (atomicSystem O v) s es).value = final O s.value (commits es) := by
  induction es with
  | nil => intro s _; exact ⟨trivial, rfl⟩
  | cons e es ih =>
    rintro s ⟨⟨he, _⟩, hes⟩
    obtain ⟨hl, hf⟩ := ih hes
    cases e with
    | call i op => exact ⟨hl, hf⟩
    | ret i op answer => exact ⟨hl, hf⟩
    | commit i op answer => exact ⟨⟨he.2, hl⟩, hf⟩

end AtomicObject
