import Lotos.Response.Dialogue
import Lotos.Server.Held

/-!
# A dialogue, with the buffers in memory

The dialogues of `Response/Dialogue`, on a connection with its blocks: what is sent is what `response_send` reads at `r->ob`,
and what `sendfile` takes from the file.
-/

namespace Lotos

structure HeldDialogue where
  dialogue : Dialogue
  bufs : Buffers

def HeldDialogue.held (s : HeldDialogue) : HeldState := ⟨s.dialogue.state, s.bufs⟩

def HeldDialogue.start (nextFd : ℕ) (now : ℤ) (bufs : Buffers) : HeldDialogue := ⟨.start nextFd now, bufs⟩

/-- The bytes that a step sends. -/
def HeldState.handed (timeout : ℤ) (s : HeldState) (al : Allocs) : Action → List Byte
  | .event now input (some (sends, files)) =>
    if now - s.state.activeTime > timeout then []
    else
      match input with
      | none => s.state.conn.handed sends files
      | some (env, recvs) =>
        match s.held.requestHandle env recvs al with
        | .ok res => res.2.conn.handed sends files
        | .error _ => []
  | _ => []

/-- A step of the event loop on the connection. -/
def HeldDialogue.Step (timeout : ℤ) (cond : HeldDialogue → Allocs → Action → Prop) (s s' : HeldDialogue) : Prop :=
  ∃ a al, a.Enabled timeout s.dialogue.state ∧ s.held.Possible timeout al a ∧ cond s al a ∧
    s.held.apply timeout al a = .ok s'.held ∧ s'.dialogue.read = s.dialogue.read ++ a.batch timeout s.dialogue.state ∧
    s'.dialogue.out = s.dialogue.out ++ replies s.dialogue.state.conn s'.dialogue.state.conn ∧
    s'.dialogue.sent = s.dialogue.sent ++ s.held.handed timeout al a

abbrev HeldDialogue.Run (timeout : ℤ) (cond : HeldDialogue → Allocs → Action → Prop) : HeldDialogue → HeldDialogue → Prop :=
  Relation.ReflTransGen (HeldDialogue.Step timeout cond)

section Dialogues

variable {timeout : ℤ} {env : Env} {date : List Byte} {ps : List (PageRequest env)} {s : HeldDialogue}

end Dialogues

end Lotos
