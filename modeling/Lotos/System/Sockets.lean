import Lotos.Lib.Ownership
import Lotos.System.Timely

/-!
# The sockets of the connections

`accept` gives a descriptor that is not open, and only `connection_close` closes it.  So no two connections in use have the
same socket, and none has one that the server has open for something else: what the handlers of a connection read and write
belongs to its own client.  A descriptor for which no connection could be made is not closed: it stays among the others.
-/

namespace Lotos

/-- The connections in use own their sockets; `others` are the descriptors that are open besides. -/
abbrev Server.Owns (s : Server) (others : Finset ℕ) : Prop :=
  Ownership.Owned s.world.connFd s.world.alloc.live others s.world.openFds

section Step

variable {timeout : ℤ} {s s' : Server} {others : Finset ℕ}

@[simp] theorem accepted_world (s : Server) (w : World) (nextFd : ℕ) (o : Option ConnPtr) :
    (s.accepted w nextFd o).world = w := by
  cases o <;> rfl

/-- What `connection_accept` leaves: a connection with the new socket, or none; the new socket is then closed or leaked. -/
theorem accept_owned {w : World} {fd : ℕ} {r : AcceptResults} {o : Option ConnPtr} (hinv : s.Inv) (h : s.Owns others)
    (hfd : fd ∉ s.world.openFds) (hr : r.Possible s.world)
    (hok : connectionAccept { s.world with openFds := insert fd s.world.openFds } fd r = .ok (o, w)) :
    Ownership.Owned w.connFd w.alloc.live others w.openFds ∨
      Ownership.Owned w.connFd w.alloc.live (insert fd others) w.openFds := by
  obtain ⟨-, hsame⟩ := accept_frame hinv hr hok
  have hframe := connectionAccept_frame hok
  rcases hinv.accept hr hok with ⟨rfl, hlive⟩ | ⟨c', rfl, hnew, hlive⟩ <;> rw [hlive]
  · rcases hframe with ⟨-, a, rfl⟩ | ⟨c, -, -, -, -, ⟨hsome, -⟩ | ⟨-, hopen, -⟩⟩
    · exact .inr (h.leak hfd)
    · cases hsome
    · rw [hopen]
      change Ownership.Owned _ _ others ((insert fd s.world.openFds).erase fd) ∨ _
      rw [Finset.erase_insert hfd]
      exact .inl (h.congr fun c hc => (hsame c hc).2)
  · rcases hframe with ⟨hnone, -⟩ | ⟨c, -, hconn, -, -, ⟨hsome, hopen, -⟩ | ⟨hnone, -⟩⟩
    · cases hnone
    · cases hsome
      rw [hopen, hconn]
      exact .inl (h.insert hfd hnew)
    · cases hnone

/-- **The step.**  Only a descriptor without a connection can be added to the others. -/
theorem step_owned (hinv : s.Inv) (h : s.Owns others) (hstep : s.Step timeout s') :
    s'.Owns others ∨ ∃ fd, fd ∉ s.world.openFds ∧ s'.Owns (insert fd others) := by
  cases hstep with
  | wait hbatch hw => exact .inl h
  | accept hbatch hfd hr hok =>
    simp only [Server.Owns, accepted_world]
    exact (accept_owned hinv h hfd hr hok).imp_right fun h => ⟨_, hfd, h⟩
  | acceptDone hbatch => exact .inl h
  | @dispatch _ c i o events d hbatch hd hdisp =>
    have halloc : s'.world.alloc = s.world.alloc := hinv.dispatch_alloc hbatch hd hdisp
    rcases dispatch_cases hdisp with ⟨-, rfl⟩ | ⟨-, ⟨hserved⟩⟩
    · exact .inl h
    · obtain ⟨hfd, hopen, -⟩ := hserved.frame
      rw [Server.Owns, halloc, hfd, hopen]
      exact .inl h
  | @prune w clock hbatch hmono hclock hok =>
    obtain ⟨closed, hsub, -, hlive, hfd, hopen, -⟩ := prune_frame hinv.world hok
    refine .inl ?_
    change Ownership.Owned w.connFd w.alloc.live others w.openFds
    rw [hlive, hfd, hopen]
    exact h.release fun c hc => hsub c (List.mem_toFinset.mp hc)

/-- A step closes the sockets of the connections that it closes. -/
theorem step_closes (hinv : s.Inv) (h : s.Owns others) (hstep : s.Step timeout s') :
    s.world.openFds \ s'.world.openFds = (s.world.alloc.live \ s'.world.alloc.live).image s.world.connFd := by
  have hnone (hopen : s.world.openFds ⊆ s'.world.openFds) (hlive : s.world.alloc.live ⊆ s'.world.alloc.live) :
      s.world.openFds \ s'.world.openFds = (s.world.alloc.live \ s'.world.alloc.live).image s.world.connFd := by
    rw [Finset.sdiff_eq_empty_iff_subset.mpr hopen, Finset.sdiff_eq_empty_iff_subset.mpr hlive, Finset.image_empty]
  cases hstep with
  | wait hbatch hw => exact hnone subset_rfl subset_rfl
  | @accept w events fd nextFd r o hbatch hfd hr hok =>
    refine hnone ?_ ?_ <;> rw [accepted_world]
    · rcases connectionAccept_frame hok with ⟨-, a, rfl⟩ | ⟨c, -, -, -, -, ⟨-, hopen, -⟩ | ⟨-, hopen, -⟩⟩
      · exact Finset.subset_insert _ _
      · rw [hopen]
        exact Finset.subset_insert _ _
      · rw [hopen]
        exact (Finset.erase_insert hfd).ge
    · rcases hinv.accept hr hok with ⟨-, hlive⟩ | ⟨c', -, -, hlive⟩ <;> rw [hlive]
      exact Finset.subset_insert _ _
  | acceptDone hbatch => exact hnone subset_rfl subset_rfl
  | @dispatch _ c i o events d hbatch hd hdisp =>
    have halloc : s'.world.alloc = s.world.alloc := hinv.dispatch_alloc hbatch hd hdisp
    refine hnone ?_ (by rw [halloc])
    rcases dispatch_cases hdisp with ⟨-, rfl⟩ | ⟨-, ⟨hserved⟩⟩
    · exact subset_rfl
    · obtain ⟨-, hopen, -⟩ := hserved.frame
      rw [hopen]
  | @prune w clock hbatch hmono hclock hok =>
    obtain ⟨closed, hsub, -, hlive, -, hopen, -⟩ := prune_frame hinv.world hok
    have hsub : closed.toFinset ⊆ s.world.alloc.live := fun c hc => hsub c (List.mem_toFinset.mp hc)
    have hown : closed.toFinset.image s.world.connFd ⊆ s.world.openFds := by
      intro fd hfd
      obtain ⟨c, hc, rfl⟩ := Finset.mem_image.mp hfd
      exact h.mem (hsub hc)
    change s.world.openFds \ w.openFds = (s.world.alloc.live \ w.alloc.live).image s.world.connFd
    rw [hopen, hlive, Finset.sdiff_sdiff_eq_self hown, Finset.sdiff_sdiff_eq_self hsub]

theorem run_owned {s₀ : Server} (h₀ : s₀.Initial) (hrun : s₀.Run timeout s) :
    ∃ leaked, Disjoint s₀.world.openFds leaked ∧ s.Owns (s₀.world.openFds ∪ leaked) := by
  have hinv := Simulation.invariant (fun s : Server => s.Inv ∧
      ∃ leaked, Disjoint s₀.world.openFds leaked ∧ s.Owns (s₀.world.openFds ∪ leaked)) ?_ hrun ⟨h₀.inv, ∅, by simp, ?_⟩
  · exact hinv.2
  · rintro s s' ⟨hinv, leaked, hapart, h⟩ hstep
    refine ⟨hstep.inv hinv, ?_⟩
    rcases step_owned hinv h hstep with h' | ⟨fd, hfd, h'⟩
    · exact ⟨leaked, hapart, h'⟩
    · refine ⟨insert fd leaked, ?_, ?_⟩
      · rw [Finset.disjoint_insert_right]
        refine ⟨?_, hapart⟩
        intro hmem
        rw [h.held] at hfd
        exact hfd (Finset.mem_union_left _ (Finset.mem_union_left _ hmem))
      · rw [Finset.union_insert]
        exact h'
  · rw [Finset.union_empty, Server.Owns, h₀.live]
    exact Ownership.Owned.empty _ _

/-- **Sockets.**  In every state that the server reaches, the connections in use have each a socket of its own, which is open
and was not open when the server started; the other descriptors that are open are those of the start and some that were
accepted when no connection could be made.  A step closes the sockets of the connections that it closes, and no other
descriptor. -/
theorem run_sockets (timeout : ℤ) (s₀ s : Server) (h₀ : s₀.Initial) (hrun : s₀.Run timeout s) :
    (∃ leaked : Finset ℕ, Disjoint s₀.world.openFds leaked ∧
      (∀ fd, fd ∈ s.world.openFds ↔ fd ∈ s₀.world.openFds ∪ leaked ∨ ∃ c, s.world.heap.Holds c ∧ s.world.connFd c = fd) ∧
      ∀ c, s.world.heap.Holds c → s.world.connFd c ∉ s₀.world.openFds ∪ leaked ∧
        ∀ d, s.world.heap.Holds d → s.world.connFd c = s.world.connFd d → c = d) ∧
    ∀ s', s.Step timeout s' → ∀ fd ∈ s.world.openFds, fd ∉ s'.world.openFds ↔
      ∃ c, s.world.heap.Holds c ∧ ¬ s'.world.heap.Holds c ∧ s.world.connFd c = fd := by
  obtain ⟨leaked, hapart, h⟩ := run_owned h₀ hrun
  have hinv : s.Inv := Server.Reachable.inv ⟨s₀, h₀, hrun⟩
  have hholds : ∀ c, s.world.heap.Holds c ↔ c ∈ s.world.alloc.live := fun c => (hinv.world.valid.holds c).symm
  refine ⟨⟨leaked, hapart, ?_, ?_⟩, ?_⟩
  · intro fd
    simp only [h.held, Finset.mem_union (s := s₀.world.openFds ∪ leaked), Finset.mem_image, hholds]
  · intro c hc
    rw [hholds] at hc
    refine ⟨h.apart c hc, ?_⟩
    intro d hd heq
    rw [hholds] at hd
    exact h.injOn hc hd heq
  · intro s' hstep fd hfd
    have hinv' := hstep.inv hinv
    have hholds' : ∀ c, s'.world.heap.Holds c ↔ c ∈ s'.world.alloc.live := fun c => (hinv'.world.valid.holds c).symm
    have hcloses := Finset.ext_iff.mp (step_closes hinv h hstep) fd
    simp only [Finset.mem_sdiff, hfd, true_and, Finset.mem_image] at hcloses
    simp only [hholds, hholds', hcloses, and_assoc]

/-- The first connection has a socket of its own. -/
theorem run_sockets_first : ∃ s : Server, Server.first.Run 10 s ∧ s.world.heap.Holds 4096 ∧
    s.world.connFd 4096 ∉ Server.first.world.openFds := by
  obtain ⟨s, hrun, -, hlive, -⟩ := first_waits
  have hinv : s.Inv := Server.Reachable.inv ⟨Server.first, first_initial, hrun⟩
  have hholds := live_holds hinv hlive
  obtain ⟨⟨leaked, -, -, hown⟩, -⟩ := run_sockets 10 Server.first s first_initial hrun
  refine ⟨s, hrun, hholds, ?_⟩
  intro hmem
  exact (hown 4096 hholds).1 (Finset.mem_union_left _ hmem)

end Step

end Lotos
