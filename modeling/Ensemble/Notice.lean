import Ensemble.ConfigError
import Ensemble.Role

/-!
# Notices

What is reported to the operator without refusing anything, and the lines that say so.
-/

namespace Ensemble

/-- Something odd that was met and tolerated. -/
inductive Notice
  | relativePath (path : Path)
  | snapRetainFloor (configured applied : UInt32)
  | peerTypeMismatch (listed configured : Role)
  | nextUnreadable (file : Path) (error : FileError)
  | singleParticipant (observers : Nat)
  | noFaultTolerance (participants : Nat)
  | evenParticipants (participants : Nat)
  | serverEntrySkipped (key : String) (error : ConfigError)
  | deleteFailed (file : Path) (error : FileError)
  | nextIgnored (active next : Version)
deriving DecidableEq, Repr

inductive Severity
  | warning
  | error
deriving DecidableEq, Repr

def Notice.severity : Notice → Severity
  | .singleParticipant _ => .error
  | _ => .warning

open Text

def Notice.message : Notice → String
  | .relativePath p => s!"event=config_relative_path path={p.display} hint=prepend_./_to_confirm"
  | .snapRetainFloor configured applied =>
    s!"event=config_snap_retain_floor configured={decimal configured.toNat} " ++
      s!"applied={decimal applied.toNat}"
  | .peerTypeMismatch listed configured =>
    s!"event=config_peer_type_mismatch listed={listed.text} configured={configured.text} " ++
      s!"applied={listed.text}"
  | .nextUnreadable file error =>
    s!"event=config_next_unreadable path={file.display} error={error.message}"
  | .singleParticipant observers =>
    s!"event=membership_single_participant action=ignored observers={decimal observers}"
  | .noFaultTolerance participants =>
    s!"event=membership_no_fault_tolerance participants={decimal participants} recommended=3"
  | .evenParticipants participants =>
    s!"event=membership_even_participants participants={decimal participants}"
  | .serverEntrySkipped key error =>
    s!"event=client_connect_string_skip key={key} error={error.message}"
  | .deleteFailed file error =>
    s!"event=config_delete_failed path={file.display} error={error.message}"
  | .nextIgnored active next =>
    s!"event=membership_next_ignored active={hex active.toNat} next={hex next.toNat}"

/-- The line of a notice: its severity and its message. -/
def Notice.line (n : Notice) : String :=
  match n.severity with
  | .warning => "WARN " ++ n.message
  | .error => "ERROR " ++ n.message

end Ensemble
