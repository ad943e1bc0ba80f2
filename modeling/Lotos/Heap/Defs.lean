import Lotos.Bytes
import Lotos.Lib.MinHeap

/-!
# The heap of connections (`connection.c`)

`lotos_connections` is an array used as a binary min-heap on `active_time`; each connection keeps its own index in
`heap_idx`.  A connection is the address of its `connection_t`, and the two members the heap works on are functions of
that address.  An `assert` that fails is a `Fault`.

`time(NULL)` is a parameter: each function that reads the clock takes the value read.
-/

namespace Lotos

/-- The address of a `connection_t`. -/
abbrev ConnPtr := ℕ

def maxConnection : ℕ := 10240

/-- The program is stopped by a failed `assert`. -/
inductive AssertFailure where
  | cSwap | heapBubbleDown | connectionUnregister
  deriving DecidableEq, Repr

structure Heap where
  lotosConnections : ℕ → ConnPtr
  heapSize : ℕ
  activeTime : ConnPtr → ℤ
  heapIdx : ConnPtr → ℕ

/-- The `active_time` at an index. -/
def Heap.key (h : Heap) (i : ℕ) : ℤ := h.activeTime (h.lotosConnections i)

/-- The empty heap; what the array and the connections hold does not matter. -/
def Heap.empty (lotosConnections : ℕ → ConnPtr) (activeTime : ConnPtr → ℤ) (heapIdx : ConnPtr → ℕ) : Heap :=
  ⟨lotosConnections, 0, activeTime, heapIdx⟩

/-- The two assignments of `c_swap` to `heap_idx`. -/
def Heap.setIdx (h : Heap) (x y : ℕ) : Heap :=
  { h with heapIdx :=
      Function.update (Function.update h.heapIdx (h.lotosConnections x) x) (h.lotosConnections y) y }

/-- `c_swap` -/
def cSwap (h : Heap) (x y : ℕ) : Except AssertFailure Heap :=
  if x < h.heapSize ∧ y < h.heapSize then
    .ok (Heap.setIdx { h with lotosConnections := MinHeap.exchange h.lotosConnections x y } x y)
  else .error .cSwap

/-- `heap_bubble_up`.  `PARENT(idx) >= 0` says that `idx` is not `0`, since `PARENT(0)` is `-1`. -/
def heapBubbleUp (h : Heap) (idx : ℕ) : Except AssertFailure Heap :=
  if _hidx : 0 < idx then
    let fidx := MinHeap.parent idx
    if h.key idx ≥ h.key fidx then .ok h
    else
      match cSwap h idx fidx with
      | .ok h' => heapBubbleUp h' fidx
      | .error e => .error e
  else .ok h
termination_by idx
decreasing_by exact MinHeap.parent_lt _hidx

/-- `INHEAP(heap_size, x) ? x : heap_size + 1` -/
def childOrEnd (h : Heap) (x : ℕ) : ℕ := if x < h.heapSize then x else h.heapSize + 1

/-- `proper_child` of `heap_bubble_down`, if there is a child. -/
def properChild (h : Heap) (idx : ℕ) : Option ℕ :=
  let lchild := childOrEnd h (2 * idx + 1)
  let rchild := childOrEnd h (2 * idx + 2)
  if lchild > h.heapSize ∧ rchild > h.heapSize then none
  else if lchild < h.heapSize ∧ rchild < h.heapSize then
    some (if h.key lchild < h.key rchild then lchild else rchild)
  else if lchild > h.heapSize then some rchild
  else some lchild

theorem properChild_gt {h : Heap} {idx c : ℕ} (hc : properChild h idx = some c) :
    idx < c ∧ c < h.heapSize ∧ MinHeap.parent c = idx := by
  unfold properChild childOrEnd at hc
  unfold MinHeap.parent
  simp only at hc
  split_ifs at hc <;> cases hc <;> omega

theorem cSwap_heapSize {h h' : Heap} {x y : ℕ} (hs : cSwap h x y = .ok h') : h'.heapSize = h.heapSize := by
  unfold cSwap at hs
  split_ifs at hs
  cases hs
  rfl

/-- `heap_bubble_down` -/
def heapBubbleDown (h : Heap) (idx : ℕ) : Except AssertFailure Heap :=
  match _hc : properChild h idx with
  | none => .ok h
  | some c =>
    if h.key idx ≤ h.key c then .ok h
    else if c < h.heapSize then
      match _hs : cSwap h idx c with
      | .ok h' => heapBubbleDown h' c
      | .error e => .error e
    else .error .heapBubbleDown
termination_by h.heapSize - idx
decreasing_by
  have hgt := properChild_gt _hc
  have hsize := cSwap_heapSize _hs
  omega

/-- `heap_insert` -/
def heapInsert (h : Heap) (c : ConnPtr) : Except AssertFailure (Status × Heap) :=
  if h.heapSize ≥ maxConnection then .ok (.error, h)
  else
    let h₁ : Heap := { h with
      lotosConnections := Function.update h.lotosConnections h.heapSize c
      heapSize := h.heapSize + 1
      heapIdx := Function.update h.heapIdx c h.heapSize }
    match heapBubbleUp h₁ h.heapSize with
    | .ok h' => .ok (.ok, h')
    | .error e => .error e

/-- `connection_register` -/
def connectionRegister (h : Heap) (c : ConnPtr) : Except AssertFailure (Status × Heap) :=
  if h.heapSize ≥ maxConnection then .ok (.error, h) else heapInsert h c

/-- The heap after the assignments of `connection_unregister`. -/
def Heap.dropTo (h : Heap) (idx : ℕ) : Heap :=
  { h with
    lotosConnections := Function.update h.lotosConnections idx (h.lotosConnections (h.heapSize - 1))
    heapIdx := Function.update h.heapIdx (h.lotosConnections (h.heapSize - 1)) idx
    heapSize := h.heapSize - 1 }

/-- `connection_unregister` -/
def connectionUnregister (h : Heap) (c : ConnPtr) : Except AssertFailure Heap :=
  if h.heapSize ≥ 1 then heapBubbleDown (h.dropTo (h.heapIdx c)) (h.heapIdx c)
  else .error .connectionUnregister

/-- `connection_close`, as far as the heap goes; the descriptor and the memory of the connection are given back. -/
def connectionClose (h : Heap) (c : ConnPtr) : Except AssertFailure Heap := connectionUnregister h c

/-- `connecion_set_reactivated`, with the time it reads. -/
def connecionSetReactivated (h : Heap) (now : ℤ) (c : ConnPtr) : Except AssertFailure Heap :=
  heapBubbleDown { h with activeTime := Function.update h.activeTime c now } (h.heapIdx c)

/-- `connecion_set_expired` -/
def connecionSetExpired (h : Heap) (c : ConnPtr) : Except AssertFailure Heap :=
  heapBubbleUp { h with activeTime := Function.update h.activeTime c 0 } (h.heapIdx c)

/-! ### The sizes -/

section BubbleDown

variable {h h₁ : Heap} {idx c : ℕ}

theorem heapBubbleDown_leaf (hc : properChild h idx = none) : heapBubbleDown h idx = .ok h := by
  rw [heapBubbleDown, hc]

theorem heapBubbleDown_stop (hc : properChild h idx = some c) (hle : h.key idx ≤ h.key c) :
    heapBubbleDown h idx = .ok h := by
  rw [heapBubbleDown, hc]
  simp only [hle, if_true]

theorem heapBubbleDown_swap (hc : properChild h idx = some c) (hlt : ¬ h.key idx ≤ h.key c)
    (hs : cSwap h idx c = .ok h₁) : heapBubbleDown h idx = heapBubbleDown h₁ c := by
  rw [heapBubbleDown, hc]
  simp only [hlt, if_false, (properChild_gt hc).2.1, if_true]
  rw [hs]

theorem heapBubbleDown_error {e : AssertFailure} (hc : properChild h idx = some c) (hlt : ¬ h.key idx ≤ h.key c)
    (hs : cSwap h idx c = .error e) : heapBubbleDown h idx = .error e := by
  rw [heapBubbleDown, hc]
  simp only [hlt, if_false, (properChild_gt hc).2.1, if_true]
  rw [hs]

end BubbleDown

theorem heapBubbleDown_heapSize {h h' : Heap} {idx : ℕ} (hd : heapBubbleDown h idx = .ok h') :
    h'.heapSize = h.heapSize := by
  induction h, idx using heapBubbleDown.induct with
  | case1 h idx hc =>
    rw [heapBubbleDown_leaf hc] at hd
    cases hd
    rfl
  | case2 h idx c hc hle =>
    rw [heapBubbleDown_stop hc hle] at hd
    cases hd
    rfl
  | case3 h idx c hc hlt _ h₁ hs ih =>
    rw [heapBubbleDown_swap hc hlt hs] at hd
    rw [ih hd, cSwap_heapSize hs]
  | case4 h idx c hc hlt _ e hs =>
    rw [heapBubbleDown_error hc hlt hs] at hd
    cases hd
  | case5 h idx c hc hlt hout => exact absurd (properChild_gt hc).2.1 hout

theorem connectionClose_heapSize {h h' : Heap} {c : ConnPtr} (hc : connectionClose h c = .ok h') :
    h'.heapSize < h.heapSize := by
  unfold connectionClose connectionUnregister at hc
  split_ifs at hc with hpos
  rw [heapBubbleDown_heapSize hc]
  simp only [Heap.dropTo]
  omega

/-- The loop of `connection_prune`, with the values of the clock it reads, one each time round.  It answers the
connections it has closed, in that order. -/
def connectionPrune (timeout : ℤ) (clock : ℕ → ℤ) (h : Heap) : Except AssertFailure (List ConnPtr × Heap) :=
  if h.heapSize > 0 then
    let c := h.lotosConnections 0
    if clock 0 - h.activeTime c ≥ timeout then
      match _hc : connectionClose h c with
      | .ok h' =>
        match connectionPrune timeout (fun k => clock (k + 1)) h' with
        | .ok (closed, h'') => .ok (c :: closed, h'')
        | .error e => .error e
      | .error e => .error e
    else .ok ([], h)
  else .ok ([], h)
termination_by h.heapSize
decreasing_by exact connectionClose_heapSize _hc

end Lotos
