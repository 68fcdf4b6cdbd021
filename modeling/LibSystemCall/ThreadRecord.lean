import LibSystemCall.StructLayout

/-! # struct z_pthread_t

The LP64 layout of the thread record; each group of bit-fields is one storage unit. -/
namespace ThreadRecord

open StructLayout

inductive ThreadField where
  | sig | cleanupStack | tlPlist | tlJoinCtx | tlExitValue | tlBits | tlExitGate | tlParam
  | unusedPadding | lock | maxTsdKey | flagBits | pthreadName | startFun | arg | wqNevents
  | wqOutsideqos | canceled | cancelState | cancelError | errNo | stackaddr | stackbottom
  | freeaddr | freesize | guardsize | threadId | tsd
  deriving DecidableEq, Repr

def externalPosixThreadKeysMax : ℕ := 512
def internalPosixThreadKeysMax : ℕ := 256

def ThreadField.size : ThreadField → ℕ
  | .tlPlist => 16
  | .tlBits | .tlExitGate | .lock | .wqNevents | .cancelError | .errNo => 4
  | .maxTsdKey | .flagBits | .cancelState => 2
  | .wqOutsideqos | .canceled => 1
  | .pthreadName => 64
  | .tsd => 8 * (externalPosixThreadKeysMax + internalPosixThreadKeysMax)
  | _ => 8

def ThreadField.align : ThreadField → ℕ
  | .tlBits | .tlExitGate | .tlParam | .lock | .wqNevents | .cancelError | .errNo => 4
  | .maxTsdKey | .flagBits | .cancelState => 2
  | .wqOutsideqos | .canceled | .pthreadName => 1
  | .tsd => 16
  | _ => 8

def threadShape : Shape ThreadField where
  fields :=
    [.sig, .cleanupStack, .tlPlist, .tlJoinCtx, .tlExitValue, .tlBits, .tlExitGate, .tlParam,
      .unusedPadding, .lock, .maxTsdKey, .flagBits, .pthreadName, .startFun, .arg, .wqNevents,
      .wqOutsideqos, .canceled, .cancelState, .cancelError, .errNo, .stackaddr, .stackbottom,
      .freeaddr, .freesize, .guardsize, .threadId, .tsd]
  size := ThreadField.size
  align := ThreadField.align
  complete f := by cases f <;> decide
  align_pos f := by cases f <;> decide

end ThreadRecord
