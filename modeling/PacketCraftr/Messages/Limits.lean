import PacketCraftr.Foundation.Outcome

/-!
# The limits of application analysis

`Limits` of `analysis/application.rs`, as far as one direction of one connection checks them: how
many messages there are, how many bytes are buffered and how many are retained.
-/

namespace PacketCraftr.Messages

/-- `Limits`, as far as one direction checks them. -/
structure Limits where
  maxMessages : ℕ
  maxBufferBytes : ℕ
  maxRetainedBytes : ℕ
  deriving DecidableEq, Repr

/-- `application::Error`: a limit is reached. -/
structure LimitError where
  field : String
  limit : ℕ
  deriving DecidableEq, Repr

namespace Limits

def decodedCharge (bytes : ℕ) : ℕ := bytes * 32 + 4096

def checkMessages (limits : Limits) (seen : ℕ) : Except LimitError Unit :=
  Except.rejectIf (limits.maxMessages ≤ seen) ⟨"max_messages", limits.maxMessages⟩

def checkBuffer (limits : Limits) (bytes : ℕ) : Except LimitError Unit :=
  Except.rejectIf (limits.maxBufferBytes < bytes) ⟨"max_buffer_bytes", limits.maxBufferBytes⟩

def checkRetained (limits : Limits) (total : ℕ) : Except LimitError Unit :=
  Except.rejectIf (limits.maxRetainedBytes < total)
    ⟨"max_retained_bytes", limits.maxRetainedBytes⟩

end Limits

end PacketCraftr.Messages
