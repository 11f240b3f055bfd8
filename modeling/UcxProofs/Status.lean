import Mathlib

/-!
Status codes, `ucs_status_t` of `ucs/type/status.h`, with their numeric values. The ranges of
link and endpoint failure codes are left out: no modelled function returns them.
-/

namespace UcxProofs

/-- `ucs_status_t`. -/
inductive UcsStatus
  | ok
  | inprogress
  | errNoMessage
  | errNoResource
  | errIoError
  | errNoMemory
  | errInvalidParam
  | errUnreachable
  | errInvalidAddr
  | errNotImplemented
  | errMessageTruncated
  | errNoProgress
  | errBufferTooSmall
  | errNoElem
  | errSomeConnectsFailed
  | errNoDevice
  | errBusy
  | errCanceled
  | errShmemSegment
  | errAlreadyExists
  | errOutOfRange
  | errTimedOut
  | errExceedsLimit
  | errUnsupported
  | errRejected
  | errNotConnected
  | errConnectionReset
  deriving DecidableEq, Repr

/-- The value of the status in `ucs_status_t`. -/
def UcsStatus.toInt : UcsStatus → ℤ
  | .ok => 0
  | .inprogress => 1
  | .errNoMessage => -1
  | .errNoResource => -2
  | .errIoError => -3
  | .errNoMemory => -4
  | .errInvalidParam => -5
  | .errUnreachable => -6
  | .errInvalidAddr => -7
  | .errNotImplemented => -8
  | .errMessageTruncated => -9
  | .errNoProgress => -10
  | .errBufferTooSmall => -11
  | .errNoElem => -12
  | .errSomeConnectsFailed => -13
  | .errNoDevice => -14
  | .errBusy => -15
  | .errCanceled => -16
  | .errShmemSegment => -17
  | .errAlreadyExists => -18
  | .errOutOfRange => -19
  | .errTimedOut => -20
  | .errExceedsLimit => -21
  | .errUnsupported => -22
  | .errRejected => -23
  | .errNotConnected => -24
  | .errConnectionReset => -25

/-- `UCS_STATUS_IS_ERR`: the status is an error, a negative value. -/
def UcsStatus.IsErr (s : UcsStatus) : Prop := s.toInt < 0

instance (s : UcsStatus) : Decidable s.IsErr := inferInstanceAs (Decidable (s.toInt < 0))

end UcxProofs
