import Lotos.Buffer.Handles
import Lotos.Request.Frame

/-!
# Calls on the buffers, one after the other

`recvCalls` are the calls in the loop of `request_recv`, and `helperCalls` those of a list of functions `response_append_*`,
each with the answers of `realloc`.  If every one of them meets the condition of `run_current`, they are made on valid
handles, and the blocks hold what they would as lists of bytes (`applyAll_current`, `applyAll_content`).
-/

namespace Lotos

/-- The calls one after the other. -/
def Buffers.applyAll (s : Buffers) : List BufferCall → Except BufferFault Buffers
  | [] => .ok s
  | call :: rest =>
    match s.apply call with
    | .error e => .error e
    | .ok s => s.applyAll rest

/-- Each of the calls meets the condition, in the state in which it is made. -/
def Buffers.All (cond : Buffers → BufferCall → Prop) (s : Buffers) : List BufferCall → Prop
  | [] => True
  | call :: rest => cond s call ∧ ∀ s', s.apply call = .ok s' → s'.All cond rest

/-- `buffer_cat` in `request_recv`, for every chunk that `recv` delivers. -/
def recvCalls : List RecvResult → List Realloc → List BufferCall
  | .data bs :: rest, ras => if bs.length = 0 then [] else .recv bs (ras.headD .null) :: recvCalls rest ras.tail
  | _, _ => []

def helperCalls : List Helper → List (List Realloc) → List BufferCall
  | [], _ => []
  | f :: fs, rass => .append f (rass.headD []) :: helperCalls fs rass.tail

/-- The bytes at `r->ib`, if there is a block. -/
def Buffers.ibBytes (s : Buffers) : Option (List Byte) := (s.store s.ib).map Buffer.bytes

/-- The bytes at `r->ob`, if there is a block. -/
def Buffers.obBytes (s : Buffers) : Option (List Byte) := (s.ob.bind s.store).map Buffer.bytes

/-- The handlers write to the block at `r->ib`, in place. -/
def Buffers.rewriteIb (s : Buffers) (bs : List Byte) : Buffers where
  store := Function.update s.store s.ib ((s.store s.ib).map fun b => b.rewrite bs)
  ib := s.ib
  ob := s.ob
  saved := s.saved.map fun p => { p with byte := none }
  ibLast := s.ibLast
  obLast := s.obLast
  received := bs
  appended := s.appended

/-- `free`, of a block that is there. -/
def Store.free (st : Store) (h : Handle) : Except BufferFault Store :=
  match st h with
  | none => .error .dangling
  | some _ => .ok (Function.update st h none)

/-- The two calls of `buffer_free` in `connection_free`; `free(NULL)` does nothing. -/
def Buffers.free (s : Buffers) : Except BufferFault Buffers :=
  match s.store.free s.ib with
  | .error e => .error e
  | .ok st =>
    match s.ob with
    | none => .ok { s with store := st }
    | some h =>
      match st.free h with
      | .error e => .error e
      | .ok st => .ok { s with store := st, ob := none }

/-! ### The handles -/

section Handles

variable {s s' : Buffers} {calls : List BufferCall} {cond cond' : Buffers → BufferCall → Prop}

/-- **The calls.** -/
theorem applyAll_current (hs : s.Current) (hposs : s.All (fun s call => call.Possible s) calls)
    (hkeeps : s.All (fun s call => call.Keeps s) calls) : ∃ s', s.applyAll calls = .ok s' ∧ s'.Current := by
  induction calls generalizing s with
  | nil => exact ⟨s, rfl, hs⟩
  | cons call rest ih =>
    obtain ⟨s₁, hok, hs₁⟩ := apply_current hs hposs.1 hkeeps.1
    obtain ⟨s', hok', hs'⟩ := ih hs₁ (hposs.2 s₁ hok) (hkeeps.2 s₁ hok)
    refine ⟨s', ?_, hs'⟩
    rw [Buffers.applyAll, hok]
    exact hok'

theorem Buffers.Current.ibBytes (hs : s.Current) : s.ibBytes = some s.received := by
  obtain ⟨b, hst, hb⟩ := hs.input
  rw [Buffers.ibBytes, hst, Option.map_some, hb.bytes]

theorem Buffers.Current.obBytes (hs : s.Current) : s.obBytes = some s.appended := by
  obtain ⟨h, b, hob, -, hst, hb⟩ := hs.output
  rw [Buffers.obBytes, hob, Option.bind_some, hst, Option.map_some, hb.bytes]

theorem Buffers.Current.rewriteIb (hs : s.Current) {bs : List Byte} (hlen : bs.length = s.received.length) :
    (s.rewriteIb bs).Current := by
  obtain ⟨b, hst, hb⟩ := hs.input
  obtain ⟨h, b', hob, hne, hst', hb'⟩ := hs.output
  refine ⟨⟨b.rewrite bs, ?_, hb.rewrite hlen⟩, ⟨h, b', hob, hne, ?_, hb'⟩, hs.ibLast, hs.obLast, ?_⟩
  · change Function.update s.store s.ib _ s.ib = _
    rw [Function.update_self, hst]
  · exact (Function.update_of_ne hne _ _).trans hst'
  · intro p hp
    obtain ⟨q, hq, rfl⟩ := List.mem_map.mp hp
    obtain ⟨hhandle, hoffset, -⟩ := hs.saved q hq
    refine ⟨hhandle, ?_, by rintro v ⟨⟩⟩
    change q.offset ≤ bs.length
    omega

theorem Buffers.Current.free (hs : s.Current) : ∃ s', s.free = .ok s' := by
  obtain ⟨b, hst, -⟩ := hs.input
  obtain ⟨h, b', hob, hne, hst', -⟩ := hs.output
  have hib : s.store.free s.ib = .ok (Function.update s.store s.ib none) := by rw [Store.free, hst]
  have hfree : Store.free (Function.update s.store s.ib none) h =
      .ok (Function.update (Function.update s.store s.ib none) h none) := by
    rw [Store.free, Function.update_of_ne hne, hst']
  rw [Buffers.free, hib, hob]
  simp only [hfree]
  exact ⟨_, rfl⟩

end Handles

/-! ### What the blocks hold -/

/-- What has been received and appended, after a call. -/
def BufferCall.effect (x : List Byte × List Byte) : BufferCall → List Byte × List Byte
  | .recv chunk _ => (x.1 ++ chunk, x.2)
  | .save _ => x
  | .append f _ => (x.1, x.2 ++ f.pieces.flatten)
  | .clearOb => (x.1, [])
  | .reset => ([], [])

def Buffers.content (s : Buffers) : List Byte × List Byte := (s.received, s.appended)

section Content

variable {s s' : Buffers} {calls : List BufferCall}

theorem catEach_received {b : Option Handle} {pieces : List (List Byte)} {ras : List Realloc}
    (h : s.catEach b pieces ras = .ok s') : s'.received = s.received := by
  induction pieces generalizing s ras with
  | nil =>
    obtain rfl := Except.ok.inj h
    rfl
  | cons bs rest ih =>
    rw [Buffers.catEach] at h
    split at h
    · cases h
    · rename_i s₁ hcat
      rw [ih h]
      unfold Buffers.catOb at hcat
      repeat' split at hcat
      all_goals cases hcat
      rfl

theorem append_received {f : Helper} {ras : List Realloc} (h : s.apply (.append f ras) = .ok s') :
    s'.received = s.received := by
  cases f with
  | date line =>
    simp only [Buffers.apply, Buffers.appendDate] at h
    repeat' split at h
    all_goals cases h
    rfl
  | _ => exact catEach_received h

theorem clearOb_content (h : s.clearOb = .ok s') : s'.content = (s.received, []) := by
  unfold Buffers.clearOb at h
  repeat' split at h
  all_goals cases h
  rfl

theorem apply_content {call : BufferCall} (h : s.apply call = .ok s') : s'.content = call.effect s.content := by
  cases call with
  | recv chunk ra =>
    rw [Buffers.apply] at h
    split at h
    · cases h
    · obtain rfl := Except.ok.inj h
      rfl
  | save offset =>
    obtain rfl := Except.ok.inj h
    rfl
  | append f ras => exact Prod.ext (append_received h) (append_appended h)
  | clearOb => exact clearOb_content h
  | reset =>
    rw [Buffers.apply] at h
    split at h
    · cases h
    · exact clearOb_content h

theorem applyAll_content (h : s.applyAll calls = .ok s') : s'.content = calls.foldl BufferCall.effect s.content := by
  induction calls generalizing s with
  | nil =>
    obtain rfl := Except.ok.inj h
    rfl
  | cons call rest ih =>
    rw [Buffers.applyAll] at h
    split at h
    · cases h
    · rename_i s₁ hcall
      rw [ih h, apply_content hcall]
      rfl

theorem recvCalls_effect (recvs : List RecvResult) (ras : List Realloc) (x : List Byte × List Byte) :
    (recvCalls recvs ras).foldl BufferCall.effect x = (x.1 ++ recvBytes recvs, x.2) := by
  induction recvs generalizing ras x with
  | nil => simp [recvCalls, recvBytes]
  | cons r rest ih =>
    cases r with
    | data bs =>
      rw [recvCalls, recvBytes]
      split_ifs
      · simp
      · rw [List.foldl_cons, ih, BufferCall.effect, List.append_assoc]
    | _ => simp [recvCalls, recvBytes]

theorem helperCalls_effect (fs : List Helper) (rass : List (List Realloc)) (x : List Byte × List Byte) :
    (helperCalls fs rass).foldl BufferCall.effect x = (x.1, x.2 ++ appendedBy fs) := by
  induction fs generalizing rass x with
  | nil => simp [helperCalls, appendedBy]
  | cons f fs ih =>
    rw [helperCalls, List.foldl_cons, ih, BufferCall.effect, List.append_assoc]
    rfl

end Content

/-! ### Room -/

/-- There is room for so many bytes in the two blocks. -/
structure Buffers.Room (s : Buffers) (n m : ℕ) : Prop where
  ib : ∀ b, s.store s.ib = some b → (n : ℤ) ≤ b.free
  ob : ∀ h b, s.ob = some h → s.store h = some b → (m : ℤ) ≤ b.free

section Room

variable {s s' : Buffers} {n m : ℕ} {b : Buffer} {xs : List Byte}

theorem catEach_room (hs : s.Current) {h : Handle} (hob : s.ob = some h) (hne : h ≠ s.ib) (hst : s.store h = some b)
    (hb : b.Holds s.appended) {pieces : List (List Byte)} (ras : List Realloc)
    (hroom : (pieces.flatten.length : ℤ) ≤ b.free) : ∃ s' b', s.catEach (some h) pieces ras = .ok s' ∧ s'.ob = some h ∧
      s'.ib = s.ib ∧ s'.store s'.ib = s.store s.ib ∧ s'.store h = some b' ∧ b'.free = b.free - pieces.flatten.length := by
  induction pieces generalizing s b ras with
  | nil => exact ⟨s, b, rfl, hob, rfl, rfl, hst, by simp⟩
  | cons bs rest ih =>
    rw [List.flatten_cons, List.length_append] at hroom ⊢
    have hfit : (bs.length : ℤ) ≤ b.free := by omega
    have hcat : (b.cat bs (ras.headD .null)).Holds (s.appended ++ bs) := hb.cat (.inl hfit)
    let s₁ : Buffers := { s with
      store := Function.update s.store h (some (b.cat bs (ras.headD .null)))
      ob := some h
      obLast := some h
      appended := s.appended ++ bs }
    have hok : s.catOb (some h) bs (ras.headD .null) = .ok s₁ := by rw [Buffers.catOb, bufferCat_stays hst hb (.inl hfit)]
    have hs₁ : s₁.Current := hs.setOb hne (Function.update_self _ _ _) hcat (Function.update_of_ne hne.symm _ _)
    obtain ⟨s', b', hok', hob', hib', hin', hst', hfree⟩ := ih (s := s₁) hs₁ rfl hne (Function.update_self _ _ _)
      hcat ras.tail (by rw [hb.cat_free hfit]; omega)
    refine ⟨s', b', ?_, hob', hib', hin'.trans (Function.update_of_ne hne.symm _ _), hst', ?_⟩
    · rw [Buffers.catEach, hok]
      exact hok'
    · rw [hfree, hb.cat_free hfit]
      omega

theorem recv_room (hs : s.Current) (hroom : s.Room n m) {chunk : List Byte} (ra : Realloc) (hlen : chunk.length ≤ n) :
    (BufferCall.recv chunk ra).Keeps s ∧ ∀ s', s.apply (.recv chunk ra) = .ok s' → s'.Room (n - chunk.length) m := by
  obtain ⟨b, hst, hb⟩ := hs.input
  have hfit : (chunk.length : ℤ) ≤ b.free := by
    have hn := hroom.ib b hst
    omega
  refine ⟨?_, ?_⟩
  · intro b' hst'
    obtain rfl := Option.some.inj (hst.symm.trans hst')
    exact .inl hfit
  · intro s' hok
    obtain rfl := Except.ok.inj ((recv_stays hst hb (.inl hfit)).symm.trans hok)
    refine ⟨?_, ?_⟩
    · intro b' hst'
      obtain rfl : b.cat chunk ra = b' := Option.some.inj ((Function.update_self s.ib _ s.store).symm.trans hst')
      have hn := hroom.ib b hst
      rw [hb.cat_free hfit]
      omega
    · intro h b' hob hst'
      obtain ⟨h', -, hob', hne, -, -⟩ := hs.output
      obtain rfl := Option.some.inj (hob'.symm.trans hob)
      exact hroom.ob h' b' hob ((Function.update_of_ne hne _ s.store).symm.trans hst')

theorem Buffers.Room.appended (hroom : s.Room n m) {h : Handle} {b' : Buffer} {len : ℕ} (hlen : len ≤ m)
    (hob : s.ob = some h) (hst : s.store h = some b) (hob' : s'.ob = some h)
    (hin' : s'.store s'.ib = s.store s.ib) (hst' : s'.store h = some b') (hfree : b'.free = b.free - len) : s'.Room n (m - len) := by
  refine ⟨fun b'' hin => hroom.ib b'' (hin' ▸ hin), ?_⟩
  intro h'' b'' hob'' hst''
  obtain rfl := Option.some.inj (hob'.symm.trans hob'')
  obtain rfl := Option.some.inj (hst'.symm.trans hst'')
  have hm := hroom.ob h b hob hst
  omega

theorem append_room (hs : s.Current) (hroom : s.Room n m) (f : Helper) (ras : List Realloc)
    (hlen : f.pieces.flatten.length < m) :
    (BufferCall.append f ras).Keeps s ∧
      ∀ s', s.apply (.append f ras) = .ok s' → s'.Room n (m - f.pieces.flatten.length) := by
  obtain ⟨h, b, hob, hne, hst, hb⟩ := hs.output
  have hm := hroom.ob h b hob hst
  have hfit : (f.pieces.flatten.length : ℤ) ≤ b.free := by omega
  cases f with
  | date line =>
    have hline : (line.length : ℤ) < b.free := by
      rw [show (Helper.date line).pieces.flatten = line from List.append_nil line] at hlen
      omega
    refine ⟨?_, ?_⟩
    · intro h' b' hob' hst'
      obtain rfl := Option.some.inj (hob.symm.trans hob')
      obtain rfl := Option.some.inj (hst.symm.trans hst')
      exact hline
    · intro s' hok
      have hcat : b.cat line .null = b.fill line := if_pos hline.le
      simp only [Buffers.apply, Buffers.appendDate, hob, hst, Except.ok.injEq] at hok
      subst hok
      refine hroom.appended hlen.le hob hst rfl (Function.update_of_ne hne.symm _ _) (Function.update_self _ _ _) ?_
      rw [hb.strftime_eq hline, ← hcat, hb.cat_free hline.le]
      simp [Helper.pieces]
  | _ =>
    refine ⟨?_, ?_⟩
    · intro h' b' hob' hst'
      obtain rfl := Option.some.inj (hob.symm.trans hob')
      obtain rfl := Option.some.inj (hst.symm.trans hst')
      exact keepsAll_of_room hb h ras hfit
    · intro s' hok
      obtain ⟨s₁, b', hok₁, hob', -, hin', hst', hfree⟩ := catEach_room hs hob hne hst hb ras hfit
      rw [← hob] at hok₁
      obtain rfl := Except.ok.inj (hok₁.symm.trans hok)
      exact hroom.appended hlen.le hob hst hob' hin' hst' hfree

theorem recvCalls_room (hs : s.Current) (hroom : s.Room n m) {recvs : List RecvResult} {ras : List Realloc}
    (hposs : s.All (fun s call => call.Possible s) (recvCalls recvs ras)) (hlen : (recvBytes recvs).length ≤ n) :
    s.All (fun s call => call.Keeps s) (recvCalls recvs ras) ∧
      ∀ s', s.applyAll (recvCalls recvs ras) = .ok s' → s'.Room (n - (recvBytes recvs).length) m := by
  induction recvs generalizing s n ras with
  | nil =>
    refine ⟨trivial, ?_⟩
    rintro s' ⟨⟩
    exact hroom
  | cons r rest ih =>
    cases r with
    | data bs =>
      rw [recvCalls] at hposs ⊢
      rw [recvBytes] at hlen ⊢
      split_ifs at hposs hlen ⊢ with hnil
      · refine ⟨trivial, ?_⟩
        rintro s' ⟨⟩
        exact hroom
      · rw [List.length_append] at hlen ⊢
        obtain ⟨hkeeps, hroom'⟩ := recv_room hs hroom (ras.headD .null) (show bs.length ≤ n by omega)
        obtain ⟨s₁, hok, hs₁⟩ := apply_current hs hposs.1 hkeeps
        obtain ⟨hall, hend⟩ := ih hs₁ (hroom' s₁ hok) (hposs.2 s₁ hok) (by omega)
        refine ⟨⟨hkeeps, fun s' hok' => ?_⟩, ?_⟩
        · obtain rfl := Except.ok.inj (hok.symm.trans hok')
          exact hall
        · intro s' hok'
          rw [Buffers.applyAll, hok] at hok'
          rw [← Nat.sub_sub]
          exact hend s' hok'
    | _ =>
      refine ⟨trivial, ?_⟩
      rintro s' ⟨⟩
      exact hroom

theorem helperCalls_room (hs : s.Current) (hroom : s.Room n m) {fs : List Helper} {rass : List (List Realloc)}
    (hposs : s.All (fun s call => call.Possible s) (helperCalls fs rass)) (hlen : (appendedBy fs).length < m) :
    s.All (fun s call => call.Keeps s) (helperCalls fs rass) ∧
      ∀ s', s.applyAll (helperCalls fs rass) = .ok s' → s'.Room n (m - (appendedBy fs).length) := by
  induction fs generalizing s m rass with
  | nil =>
    refine ⟨trivial, ?_⟩
    rintro s' ⟨⟩
    exact hroom
  | cons f fs ih =>
    have hsum : (appendedBy (f :: fs)).length = f.pieces.flatten.length + (appendedBy fs).length := by
      rw [appendedBy, List.flatMap_cons, List.length_append]
      rfl
    rw [hsum] at hlen ⊢
    obtain ⟨hkeeps, hroom'⟩ := append_room hs hroom f (rass.headD []) (by omega)
    obtain ⟨s₁, hok, hs₁⟩ := apply_current hs hposs.1 hkeeps
    obtain ⟨hall, hend⟩ := ih hs₁ (hroom' s₁ hok) (hposs.2 s₁ hok) (by omega)
    refine ⟨⟨hkeeps, fun s' hok' => ?_⟩, ?_⟩
    · obtain rfl := Except.ok.inj (hok.symm.trans hok')
      exact hall
    · intro s' hok'
      rw [helperCalls, Buffers.applyAll, hok] at hok'
      rw [← Nat.sub_sub]
      exact hend s' hok'

theorem Buffers.Room.rewriteIb (hroom : s.Room n m) (bs : List Byte) (hs : s.Current) : (s.rewriteIb bs).Room n m := by
  refine ⟨?_, ?_⟩
  · intro b hst
    obtain ⟨b', hst', -⟩ := hs.input
    have hb : some (b'.rewrite bs) = some b := by
      rw [← hst]
      change _ = Function.update s.store s.ib _ s.ib
      rw [Function.update_self, hst']
    obtain rfl := Option.some.inj hb
    exact hroom.ib b' hst'
  · intro h b hob hst
    obtain ⟨h', -, hob', hne, -, -⟩ := hs.output
    obtain rfl := Option.some.inj (hob'.symm.trans hob)
    exact hroom.ob h' b hob ((Function.update_of_ne hne _ s.store).symm.trans hst)

theorem init_room {ib ob : Handle} {ibMem obMem : List Byte} (hne : ob ≠ ib) :
    (Buffers.init ib ob ibMem obMem).Room bufsiz bufsiz := by
  refine ⟨?_, ?_⟩
  · intro b hst
    obtain rfl := Option.some.inj ((if_pos rfl).symm.trans hst)
    exact le_rfl
  · rintro h b ⟨⟩ hst
    obtain rfl := Option.some.inj (((if_neg hne).trans (if_pos rfl)).symm.trans hst)
    exact le_rfl

end Room

end Lotos
