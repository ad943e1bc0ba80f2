import Lotos.Strings

/-!
# The dictionary as a map (`dict.c`)

What the dictionary is for: a map from byte strings to values in which the last write wins.  `dict_get` refines it, whatever
the hashes of the keys are, because a key is looked for in the bucket of its own bytes and a new node is put in front of its
bucket.

The number of nodes is a matter of the whole table: `dict_free` counts `used` down once for every node of the 256 buckets.
`used` is an `unsigned int`, so it is the number of calls of `dict_put` modulo `2 ^ 32`.
-/

namespace Lotos

variable {V : Type} {data : List Byte}

/-- The map in which the last write wins. -/
def lastWrites (data : List Byte) (puts : List (Ssstr × V)) : List Byte → Option V :=
  puts.foldl (fun m e => Function.update m (e.1.bytes data) (some e.2)) fun _ => none

/-- The calls of `dict_put` one after the other, on a dictionary that has been initialised. -/
def dictPuts (data : List Byte) (puts : List (Ssstr × V)) : Dict V :=
  puts.foldl (fun d e => dictPut data d e.1 e.2) .init

/-- `dict_get` on values that are pointers, with what it writes to `found_flag`; `none` is `NULL`. -/
def dictGetFlag (data : List Byte) (d : Dict (Option V)) (key : Ssstr) : Option V × Bool :=
  match dictGet data d key with
  | some v => (v, true)
  | none => (none, false)

/-- The loops of `dict_free` over the buckets and their nodes. -/
def dictFree (d : Dict V) : Dict V :=
  { d with
    used := (List.range 256).foldl (fun used i => (d.table (UInt32.ofNat i)).foldl (fun used _ => used - 1) used) d.used }

/-! ### Lookup -/

section Lookup

variable {puts : List (Ssstr × V)} {key : Ssstr}

/-- The induction is on the calls; what holds at its beginning is that the dictionary and the map agree on the key. -/
theorem dictGet_foldl_puts (hputs : ∀ e ∈ puts, e.1.str ≠ .null) (hkey : key.str ≠ .null) {d : Dict V}
    {m : List Byte → Option V} (hd : dictGet data d key = m (key.bytes data)) :
    dictGet data (puts.foldl (fun d e => dictPut data d e.1 e.2) d) key =
      (puts.foldl (fun (m : List Byte → Option V) e => Function.update m (e.1.bytes data) (some e.2)) m)
        (key.bytes data) := by
  induction puts generalizing d m with
  | nil => exact hd
  | cons e puts ih =>
    rw [List.foldl_cons, List.foldl_cons]
    refine ih (fun e he => hputs e (List.mem_cons_of_mem _ he)) ?_
    have hcmp := @ssstrCmp_eq_zero data e.1 key (hputs e List.mem_cons_self)
    rw [dictGet_dictPut d (hputs e List.mem_cons_self)]
    by_cases hbytes : e.1.bytes data = key.bytes data
    · rw [if_pos (hcmp.mpr ⟨hkey, hbytes⟩), hbytes, Function.update_self]
    · rw [if_neg (fun h => hbytes (hcmp.mp h).2), Function.update_of_ne (Ne.symm hbytes), hd]

theorem dictGet_dictPuts (hputs : ∀ e ∈ puts, e.1.str ≠ .null) (hkey : key.str ≠ .null) :
    dictGet data (dictPuts data puts) key = lastWrites data puts (key.bytes data) :=
  dictGet_foldl_puts hputs hkey rfl

end Lookup

/-! ### The number of nodes -/

section Count

/-- The nodes of all the buckets. -/
def Dict.nodes (d : Dict V) : ℕ := ∑ i ∈ Finset.range 256, (d.table (UInt32.ofNat i)).length

theorem lotosHash_lt (key : List Byte) : (lotosHash key).toNat < 256 := by
  rw [lotosHash, UInt32.toNat_and]
  exact lt_of_le_of_lt Nat.and_le_right (by decide)

theorem nodes_dictPut (d : Dict V) (key : Ssstr) (v : V) : (dictPut data d key v).nodes = d.nodes + 1 := by
  set hash := lotosHash (key.bytes data) with hhash
  have hlt : hash.toNat < 256 := lotosHash_lt _
  have hbucket : ∀ i ∈ Finset.range 256, ((dictPut data d key v).table (UInt32.ofNat i)).length =
      (d.table (UInt32.ofNat i)).length + if hash.toNat = i then 1 else 0 := by
    intro i hi
    have hi : i < 256 := Finset.mem_range.mp hi
    change (Function.update d.table hash ((key, v) :: d.table hash) (UInt32.ofNat i)).length = _
    split_ifs with heq
    · rw [← heq, UInt32.ofNat_toNat, Function.update_self, List.length_cons]
    · rw [Function.update_of_ne, Nat.add_zero]
      intro h
      have := congrArg UInt32.toNat h
      rw [UInt32.toNat_ofNat_of_lt' (hi.trans (by decide))] at this
      exact heq this.symm
  rw [Dict.nodes, Finset.sum_congr rfl hbucket, Finset.sum_add_distrib, Finset.sum_ite_eq,
    if_pos (Finset.mem_range.mpr hlt), Dict.nodes]

theorem foldl_sub_one (nodes : List (Ssstr × V)) (used : UInt32) :
    nodes.foldl (fun used _ => used - 1) used = used - UInt32.ofNat nodes.length := by
  induction nodes generalizing used with
  | nil => simp
  | cons node nodes ih =>
    rw [List.foldl_cons, ih, List.length_cons, UInt32.ofNat_add]
    grind

theorem dictFree_used (d : Dict V) : (dictFree d).used = d.used - UInt32.ofNat d.nodes := by
  rw [dictFree, Dict.nodes]
  simp only
  induction 256 with
  | zero => simp
  | succ n ih =>
    rw [List.range_succ, List.foldl_append, ih, List.foldl_cons, List.foldl_nil, foldl_sub_one, Finset.sum_range_succ,
      UInt32.ofNat_add]
    grind

theorem dictPuts_used (puts : List (Ssstr × V)) (d : Dict V) :
    (puts.foldl (fun d e => dictPut data d e.1 e.2) d).used = d.used + UInt32.ofNat puts.length ∧
      (puts.foldl (fun d e => dictPut data d e.1 e.2) d).nodes = d.nodes + puts.length := by
  induction puts generalizing d with
  | nil => simp
  | cons e puts ih =>
    obtain ⟨hused, hnodes⟩ := ih (dictPut data d e.1 e.2)
    rw [List.foldl_cons, hused, hnodes, nodes_dictPut, List.length_cons, UInt32.ofNat_add]
    refine ⟨?_, by omega⟩
    change d.used + 1 + _ = _
    grind

end Count

/-! ### The dictionary refines the map -/

/-- **The dictionary.**  After any calls of `dict_put`, `dict_get` is the map in which the last write wins, `found_flag` says
whether there was a write, `used` is the number of calls modulo `2 ^ 32`, and `dict_free` brings it back to zero. -/
theorem dict_refines (data : List Byte) (puts : List (Ssstr × Option V)) (hputs : ∀ e ∈ puts, e.1.str ≠ .null) :
    (∀ key : Ssstr, key.str ≠ .null → dictGetFlag data (dictPuts data puts) key =
      ((lastWrites data puts (key.bytes data)).getD none, (lastWrites data puts (key.bytes data)).isSome)) ∧
    (dictPuts data puts).used.toNat = puts.length % 2 ^ 32 ∧ (dictFree (dictPuts data puts)).used = 0 := by
  obtain ⟨hused, hnodes⟩ := @dictPuts_used (Option V) data puts .init
  have hinit : (Dict.init : Dict (Option V)).nodes = 0 := Finset.sum_const_zero
  refine ⟨?_, ?_, ?_⟩
  · intro key hkey
    rw [dictGetFlag, dictGet_dictPuts hputs hkey]
    cases lastWrites data puts (key.bytes data) <;> rfl
  · rw [dictPuts, hused]
    simp [Dict.init]
  · rw [dictFree_used, dictPuts, hused, hnodes, hinit]
    simp [Dict.init]

/-- Two keys with the same bytes, the second with `NULL`, and a key that is a proper beginning of them. -/
theorem dict_refines_twice :
    dictGetFlag [] (dictPuts [] [(.ofConst (str "ab"), some 1), (.ofConst (str "ab"), none)]) (.ofConst (str "ab")) =
      ((none : Option ℕ), true) ∧
    dictGetFlag [] (dictPuts [] [(.ofConst (str "ab"), some 1), (.ofConst (str "ab"), none)]) (.ofConst (str "a")) =
      ((none : Option ℕ), false) := by
  obtain ⟨hget, -⟩ := dict_refines [] [(.ofConst (str "ab"), some 1), (.ofConst (str "ab"), none)] (by decide)
  exact ⟨hget (.ofConst (str "ab")) nofun, hget (.ofConst (str "a")) nofun⟩

/-- `used` after `2 ^ 32` calls. -/
theorem not_forall_dict_used : ¬ ∀ puts : List (Ssstr × Option ℕ), (∀ e ∈ puts, e.1.str ≠ .null) →
    (dictPuts [] puts).used.toNat = puts.length := by
  intro h
  have hused := h (List.replicate (2 ^ 32) (.ofConst [], none)) (fun e he => by rw [List.eq_of_mem_replicate he]; nofun)
  rw [List.length_replicate] at hused
  have hlt := (dictPuts [] (List.replicate (2 ^ 32) (Ssstr.ofConst [], (none : Option ℕ)))).used.toNat_lt
  omega

end Lotos
