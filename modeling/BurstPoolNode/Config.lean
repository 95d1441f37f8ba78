import BurstPoolNode.Text.Digits
import BurstPoolNode.Wallet

/-!
# The pools of the configuration

`Config.hpp` as far as the pools are concerned: the member `poolIdToAddress` of
the document, whose names are the numbers of the pools and whose values are
their addresses, is read into a `std::map`.

* `Admitted.ordered`: what is read is ordered by its keys;
* `admitted_of_ordered`: any such map can be configured, if its addresses are C
  strings.
-/

namespace BurstPoolNode.Config

/-- `pool_id_to_addr_[pool_id] = addr`. -/
def setAddr (poolId : UInt64) (addr : String) :
    List (UInt64 × String) → List (UInt64 × String)
  | [] => [(poolId, addr)]
  | pool :: pools =>
    if poolId < pool.1 then (poolId, addr) :: pool :: pools
    else if poolId = pool.1 then (poolId, addr) :: pools
    else pool :: setAddr poolId addr pools

/-- The loop over the members. An assertion that fails and an exception leave no map. -/
def readPools : List (String × Json) → List (UInt64 × String) → Option (List (UInt64 × String))
  | [], pools => some pools
  | (name, value) :: members, pools =>
    match value with
    | .string addr => do
      let poolId ← stoull (cString name)
      readPools members (setAddr poolId (cString addr) pools)
    | _ => none

/-- The map of the pools of a document. -/
def poolIdToAddress (document : Option Json) : Option (List (UInt64 × String)) :=
  match document with
  | some (.object members) =>
    match members.lookup "poolIdToAddress" with
    | some (.object pools) => readPools pools []
    | _ => none
  | _ => none

/-- The pools of the configuration are read from a document. -/
def Admitted (cfg : Config) : Prop := ∃ document, poolIdToAddress document = some cfg.poolIdToAddr

/-! ## Order -/

/-- The keys are in order, and there are no two of one key. -/
def Ordered (pools : List (UInt64 × String)) : Prop := pools.Pairwise fun p q => p.1 < q.1

theorem mem_setAddr {poolId : UInt64} {addr : String} {pools : List (UInt64 × String)}
    {pool : UInt64 × String} (h : pool ∈ setAddr poolId addr pools) :
    pool = (poolId, addr) ∨ pool ∈ pools := by
  induction pools with
  | nil => exact .inl (List.mem_singleton.mp h)
  | cons p pools ih =>
    rw [setAddr] at h
    split_ifs at h
    · exact List.mem_cons.mp h
    · exact (List.mem_cons.mp h).imp_right (List.mem_cons_of_mem _)
    · rcases List.mem_cons.mp h with rfl | h
      · exact .inr List.mem_cons_self
      · exact (ih h).imp_right (List.mem_cons_of_mem _)

theorem Ordered.setAddr {pools : List (UInt64 × String)} (h : Ordered pools) (poolId : UInt64)
    (addr : String) : Ordered (setAddr poolId addr pools) := by
  induction pools with
  | nil => exact List.pairwise_singleton _ _
  | cons p pools ih =>
    obtain ⟨hp, hpools⟩ := List.pairwise_cons.mp h
    rw [Config.setAddr]
    split_ifs with hlt heq
    · refine List.pairwise_cons.mpr ⟨fun q hq => ?_, h⟩
      rcases List.mem_cons.mp hq with rfl | hq
      · exact hlt
      · exact UInt64.lt_trans hlt (hp q hq)
    · subst heq
      exact List.pairwise_cons.mpr ⟨hp, hpools⟩
    · refine List.pairwise_cons.mpr ⟨fun q hq => ?_, ih hpools⟩
      rcases mem_setAddr hq with rfl | hq
      · exact UInt64.lt_of_le_of_ne (UInt64.not_lt.mp hlt) (Ne.symm heq)
      · exact hp q hq

theorem ordered_readPools {members : List (String × Json)} {pools pools' : List (UInt64 × String)}
    (h : Ordered pools) (hread : readPools members pools = some pools') : Ordered pools' := by
  induction members generalizing pools with
  | nil => exact Option.some.inj hread ▸ h
  | cons member members ih =>
    obtain ⟨name, value⟩ := member
    cases value with
    | string addr =>
      obtain ⟨poolId, -, hread⟩ := Option.bind_eq_some_iff.mp hread
      exact ih (h.setAddr poolId (cString addr)) hread
    | _ => cases hread

/-- What is read is ordered by its keys. -/
theorem Admitted.ordered {cfg : Config} (h : Admitted cfg) : Ordered cfg.poolIdToAddr := by
  obtain ⟨document, h⟩ := h
  unfold poolIdToAddress at h
  split at h
  · split at h
    · exact ordered_readPools .nil h
    · cases h
  · cases h

/-! ## Any map -/

/-- The last pool. -/
theorem setAddr_of_forall_lt {poolId : UInt64} {pools : List (UInt64 × String)}
    (h : ∀ p ∈ pools, p.1 < poolId) (addr : String) :
    setAddr poolId addr pools = pools ++ [(poolId, addr)] := by
  induction pools with
  | nil => rfl
  | cons p pools ih =>
    rw [List.forall_mem_cons] at h
    rw [setAddr, if_neg (UInt64.not_lt.mpr (UInt64.le_of_lt h.1)),
      if_neg (Ne.symm (UInt64.ne_of_lt h.1)), ih h.2, List.cons_append]

/-- The members for a map. -/
def members (pools : List (UInt64 × String)) : List (String × Json) :=
  pools.map fun pool => (toDecimal pool.1, .string pool.2)

theorem readPools_members {pools : List (UInt64 × String)} (h : Ordered pools)
    (haddr : ∀ pool ∈ pools, cString pool.2 = pool.2) :
    readPools (members pools) [] = some pools := by
  have hread : ∀ (pools read : List (UInt64 × String)), Ordered (read ++ pools) →
      (∀ pool ∈ pools, cString pool.2 = pool.2) →
        readPools (members pools) read = some (read ++ pools) := by
    intro pools
    induction pools with
    | nil =>
      intro read _ _
      rw [List.append_nil]
      rfl
    | cons pool pools ih =>
      intro read hordered haddr
      rw [List.forall_mem_cons] at haddr
      have hlast := (List.pairwise_append.mp hordered).2.2
      have hname : cString (toDecimal pool.1) = toDecimal pool.1 :=
        cString_of_forall_ne fun c hc => by
          rintro rfl
          cases isDigit_of_mem_toDecimal hc
      rw [members, List.map_cons, readPools, hname, haddr.1, stoull_toDecimal,
        Option.bind_eq_bind, Option.bind_some,
        setAddr_of_forall_lt fun p hp => hlast p hp pool List.mem_cons_self]
      have htail := ih (read ++ [pool]) (by simpa using hordered) haddr.2
      rw [List.append_assoc, List.singleton_append] at htail
      exact htail
  exact hread pools [] h haddr

/-- Any map of pools can be configured, if its addresses are C strings. -/
theorem admitted_of_ordered {cfg : Config} (h : Ordered cfg.poolIdToAddr)
    (haddr : ∀ pool ∈ cfg.poolIdToAddr, cString pool.2 = pool.2) : Admitted cfg :=
  ⟨some (.object [("poolIdToAddress", .object (members cfg.poolIdToAddr))]),
    readPools_members h haddr⟩

end BurstPoolNode.Config
