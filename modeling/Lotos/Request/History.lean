import Lotos.Request.Frame
import Lotos.Request.Headers

/-!
# The past of a connection

`request_handle` does not look at the numbers of the descriptors, and not at what has happened on the connection before.
`Conn.core` is a connection without them.  Two connections with the same core go on alike (`handlerLoop_core`).
-/

namespace Lotos

/-- The connection without its past. -/
def Conn.core (c : Conn) : Conn :=
  { c with
    req := { c.req with resourceFd := none }
    nextFd := 0
    ghost := { c.ghost with failed := false, resets := 0, opened := [], closed := [] } }

/-- The result of a handler, without the past of the connection. -/
def coreRes (res : Status × Conn) : Status × Conn := (res.1, res.2.core)

section Core

variable {env : Env} {c c' : Conn}

theorem core_congr {α : Type} (f : Conn → α) (hf : ∀ c, f c.core = f c) (h : c.core = c'.core) : f c = f c' := by
  rw [← hf c, h, hf c']

theorem core_ib (h : c.core = c'.core) : c.req.ib = c'.req.ib := core_congr (fun c => c.req.ib) (fun _ => rfl) h

theorem core_par (h : c.core = c'.core) : c.req.par = c'.req.par := core_congr (fun c => c.req.par) (fun _ => rfl) h

theorem core_ob (h : c.core = c'.core) : c.req.ob = c'.req.ob := core_congr (fun c => c.req.ob) (fun _ => rfl) h

theorem core_handler (h : c.core = c'.core) : c.req.reqHandler = c'.req.reqHandler :=
  core_congr (fun c => c.req.reqHandler) (fun _ => rfl) h

theorem core_receive (h : c.core = c'.core) (bs : List Byte) : (c.receive bs).core = (c'.receive bs).core :=
  core_congr (fun c => (c.receive bs).core) (fun _ => rfl) h

theorem core_mapPar (h : c.core = c'.core) (f : ParseArchive → ParseArchive) : (c.mapPar f).core = (c'.mapPar f).core :=
  core_congr (fun c => (c.mapPar f).core) (fun _ => rfl) h

theorem core_assembleErr (h : c.core = c'.core) (code : ℕ) :
    coreRes (responseAssembleErrBuffer env c code) = coreRes (responseAssembleErrBuffer env c' code) :=
  core_congr (fun c => coreRes (responseAssembleErrBuffer env c code)) (fun _ => rfl) h

theorem core_openResource (h : c.core = c'.core) (file : File) :
    (openResource c file).core = (openResource c' file).core := by
  refine core_congr (fun c => (openResource c file).core) ?_ h
  intro c
  unfold openResource Conn.setResource
  rcases file with content | ⟨size, _ | content⟩ <;> simp only <;> generalize toInt _ = n <;> rfl

theorem core_handleHeader (h : c.core = c'.core) : (handleHeader env c).2.core = (handleHeader env c').2.core := by
  have hlower : c.lowerName.core = c'.lowerName.core := core_congr (fun c => c.lowerName.core) (fun _ => rfl) h
  have hkind : c.lowerName.kind = c'.lowerName.kind := core_congr (fun c => c.lowerName.kind) (fun _ => rfl) h
  have hrecord := core_mapPar hlower c.lowerName.kind.record
  rw [handleHeader_eq, handleHeader_eq, ← hkind]
  cases c.lowerName.kind.answer with
  | none => exact hrecord
  | some code => exact congrArg Prod.snd (core_assembleErr hrecord code)

theorem core_requestLine (h : c.core = c'.core) :
    (requestHandleRequestLine env c).map coreRes = (requestHandleRequestLine env c').map coreRes := by
  unfold requestHandleRequestLine
  rw [← core_ib h, ← core_par h]
  rcases parseRequestLine c.req.ib c.req.par with ⟨_ | _ | _ | _, ar⟩ <;> simp only
  · have hpar := core_mapPar h fun _ => ar
    split_ifs
    · exact congrArg Except.ok (core_assembleErr hpar 505)
    · unfold requestHandlePath
      have haccept : (c.mapPar fun _ => ar).acceptVersion.core = (c'.mapPar fun _ => ar).acceptVersion.core :=
        core_congr (fun c => c.acceptVersion.core) (fun _ => rfl) hpar
      rw [← core_ib haccept, ← core_par haccept]
      split
      · rename_i b hb
        cases hend : pathEnd (c.mapPar fun _ => ar).acceptVersion.req.ib b with
        | none => rfl
        | some p =>
          have hclose : ((c.mapPar fun _ => ar).acceptVersion.closePath p).core =
              ((c'.mapPar fun _ => ar).acceptVersion.closePath p).core :=
            core_congr (fun c => (c.closePath p).core) (fun _ => rfl) haccept
          simp only
          rw [← core_ib hclose, ← core_par hclose]
          split
          · exact congrArg Except.ok (core_assembleErr hclose 404)
          · exact congrArg (fun c => Except.ok (Status.ok, c)) (core_openResource hclose _)
      · rfl
  · exact congrArg (fun c => Except.ok (Status.again, c)) (core_mapPar h _)
  · exact congrArg Except.ok (core_assembleErr (core_mapPar h _) 400)
  · exact congrArg Except.ok (core_assembleErr (core_mapPar h _) 400)

theorem core_headers (h : c.core = c'.core) :
    coreRes (requestHandleHeaders env c) = coreRes (requestHandleHeaders env c') := by
  induction hn : c.req.ib.length - c.req.par.nextParsePos using Nat.strong_induction_on generalizing c c' with
  | _ n ih =>
    have hparse : parseHeaderLine c'.req.ib c'.req.par = parseHeaderLine c.req.ib c.req.par := by
      rw [core_ib h, core_par h]
    rcases hp : parseHeaderLine c.req.ib c.req.par with ⟨_ | _ | _ | _, ar⟩ <;> rw [hp] at hparse
    · have hnext := parseHeaderLine_done_pos hp (.inl rfl)
      have hpos := handleHeader_pos env (c.mapPar fun _ => ar)
      simp only [mapPar_ib, mapPar_par] at hpos
      rw [requestHandleHeaders_ok hp, requestHandleHeaders_ok hparse]
      exact ih _ (by omega) (core_handleHeader (core_mapPar h _)) rfl
    · rw [requestHandleHeaders_again hp, requestHandleHeaders_again hparse]
      exact congrArg (Prod.mk Status.again) (core_mapPar h _)
    · rw [requestHandleHeaders_crlfLine hp, requestHandleHeaders_crlfLine hparse]
      exact core_congr (fun c => (Status.ok, (c.setHandler (some .body)).core)) (fun _ => rfl) (core_mapPar h fun _ => ar)
    · rw [requestHandleHeaders_error hp, requestHandleHeaders_error hparse]
      exact core_assembleErr (core_mapPar h _) 400

theorem core_body (h : c.core = c'.core) : coreRes (requestHandleBody env c) = coreRes (requestHandleBody env c') := by
  unfold requestHandleBody
  rw [← core_ib h, ← core_par h]
  cases c.req.par.transferEncoding with
  | identity =>
    simp only
    rcases parseHeaderBodyIdentity c.req.ib c.req.par with ⟨_ | _ | _ | _, ar⟩
    · exact core_congr (fun c => coreRes (.ok, responseAssembleBuffer env ((c.mapPar fun _ => ar).turnOut.setHandler none)))
        (fun _ => rfl) h
    · exact congrArg (Prod.mk Status.again) (core_mapPar h _)
    · exact core_assembleErr (core_mapPar h _) 501
    · exact core_assembleErr (core_mapPar h _) 501
  | _ => exact core_assembleErr h 501

theorem core_call (h : c.core = c'.core) (hd : ReqHandler) : (hd.call env c).map coreRes = (hd.call env c').map coreRes := by
  cases hd with
  | requestLine => exact core_requestLine h
  | headers => exact congrArg Except.ok (core_headers h)
  | body => exact congrArg Except.ok (core_body h)

/-! ### The loop -/

theorem map_error_iff {ε α β : Type} {x : Except ε α} {f : α → β} {e : ε} : x.map f = .error e ↔ x = .error e := by
  cases x <;> simp [Except.map]

theorem map_ok_iff {ε α β : Type} {x : Except ε α} {f : α → β} {b : β} : x.map f = .ok b ↔ ∃ a, x = .ok a ∧ f a = b := by
  cases x <;> simp [Except.map]

theorem map_eq_cases {ε α β : Type} {x y : Except ε α} {f : α → β} (h : x.map f = y.map f) :
    (∃ e, x = .error e ∧ y = .error e) ∨ ∃ a b, x = .ok a ∧ y = .ok b ∧ f a = f b := by
  cases x with
  | error e =>
    cases y with
    | error e' => exact .inl ⟨e, rfl, congrArg Except.error (Except.error.inj h).symm⟩
    | ok b => cases h
  | ok a =>
    cases y with
    | error e => cases h
    | ok b => exact .inr ⟨a, b, rfl, rfl, Except.ok.inj h⟩

theorem map_bind_congr {ε α β γ δ : Type} {x y : Except ε α} {f : α → β} {g : α → Except ε γ} {f' : γ → δ}
    (h : x.map f = y.map f) (hg : ∀ a b, x = .ok a → f a = f b → (g a).map f' = (g b).map f') :
    (x.bind g).map f' = (y.bind g).map f' := by
  rcases map_eq_cases h with ⟨e, rfl, rfl⟩ | ⟨a, b, rfl, rfl, hab⟩
  · rfl
  · exact hg a b rfl hab

/-- **The past makes no difference.**  Two connections with the same core go on alike. -/
theorem handlerLoop_core (h : c.core = c'.core) : (handlerLoop env c).map coreRes = (handlerLoop env c').map coreRes := by
  induction hn : handlerRank c.req.reqHandler using Nat.strong_induction_on generalizing c c' with
  | _ n ih =>
    cases hhd : c.req.reqHandler with
    | none => rw [handlerLoop_none hhd, handlerLoop_none ((core_handler h).symm.trans hhd)]
    | some hd =>
      rw [handlerLoop_some hhd, handlerLoop_some ((core_handler h).symm.trans hhd)]
      refine map_bind_congr (core_call h hd) ?_
      rintro ⟨st, c₁⟩ ⟨st', c₁'⟩ hcall hres
      obtain ⟨rfl, hcore⟩ := Prod.mk.inj hres
      have hhandler := core_handler hcore
      by_cases hgo : st = .ok ∧ c₁.req.reqHandler ≠ none
      · rw [nextRound_go hgo, nextRound_go (by rwa [hhandler] at hgo)]
        obtain ⟨rfl, -⟩ := hgo
        have hrank := call_rank hcall
        rw [← hhd, hn] at hrank
        exact ih _ hrank hcore rfl
      · rw [nextRound_stop hgo, nextRound_stop (by rwa [hhandler] at hgo)]
        exact congrArg (fun c => Except.ok (st, c)) hcore

end Core

end Lotos
