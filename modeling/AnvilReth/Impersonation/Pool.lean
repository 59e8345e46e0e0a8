import AnvilReth.Impersonation.State

/-! # The transaction pool

The pool asks the validator about every submission before it looks at the
hash, and holds one transaction for each hash. What it further refuses or
discards is left open.
-/

namespace AnvilReth

variable {Fields : Type} {f : TxFormat Fields}

/-- A pooled transaction and whether the impersonation branch let it in. -/
structure PoolEntry (Fields : Type) where
  transaction : PooledTransaction Fields
  impersonated : Bool
  deriving DecidableEq

def PoolEntry.hash (f : TxFormat Fields) (entry : PoolEntry Fields) : B256 :=
  f.hash entry.transaction.tx

/-- The pool, with at most one transaction for each hash. -/
structure TxPool (f : TxFormat Fields) where
  entries : List (PoolEntry Fields)
  nodup : (entries.map (PoolEntry.hash f)).Nodup

namespace TxPool

def empty : TxPool f := ⟨[], List.nodup_nil⟩

variable (pool : TxPool f)

def get (hash : B256) : Option (PoolEntry Fields) :=
  pool.entries.find? fun entry => entry.hash f = hash

def allTransactionHashes : List B256 := pool.entries.map (PoolEntry.hash f)

/-- The pool without the entries the predicate refuses. -/
def keep (p : PoolEntry Fields → Bool) : TxPool f where
  entries := pool.entries.filter p
  nodup := pool.nodup.sublist ((List.filter_sublist (p := p)).map _)

def removeTransactions (hashes : List B256) : TxPool f :=
  pool.keep fun entry => entry.hash f ∉ hashes

def removeTransactionsBySender (sender : Address) : TxPool f :=
  pool.keep fun entry => entry.transaction.sender ≠ sender

/-- A hash the pool already holds is refused. Any other entry may be refused
too, or it enters and the pool discards some of its transactions. -/
def addTransaction (entry : PoolEntry Fields) (discards : Option (List B256)) : TxPool f :=
  if h : entry.hash f ∈ pool.allTransactionHashes then pool
  else match discards with
    | none => pool
    | some hashes =>
      TxPool.removeTransactions
        ⟨entry :: pool.entries, List.nodup_cons.mpr ⟨h, pool.nodup⟩⟩ hashes

variable {pool} {entry : PoolEntry Fields} {hash : B256} {hashes : List B256}

theorem get_eq_some_iff :
    pool.get hash = some entry ↔ entry ∈ pool.entries ∧ entry.hash f = hash := by
  constructor
  · intro h
    exact ⟨List.mem_of_find?_eq_some h, by simpa using List.find?_some h⟩
  · rintro ⟨hm, rfl⟩
    obtain ⟨other, ho⟩ : ∃ other, pool.get (entry.hash f) = some other := by
      rw [← Option.isSome_iff_exists, get, List.find?_isSome]
      exact ⟨entry, hm, by simp⟩
    have hhash : other.hash f = entry.hash f := by simpa using List.find?_some ho
    rw [ho, List.inj_on_of_nodup_map pool.nodup (List.mem_of_find?_eq_some ho) hm hhash]

theorem mem_keep {p : PoolEntry Fields → Bool} :
    entry ∈ (pool.keep p).entries ↔ entry ∈ pool.entries ∧ p entry := List.mem_filter

theorem mem_removeTransactions :
    entry ∈ (pool.removeTransactions hashes).entries ↔
      entry ∈ pool.entries ∧ entry.hash f ∉ hashes := by
  rw [removeTransactions, mem_keep, decide_eq_true_iff]

/-- A submission brings at most its own transaction into the pool. -/
theorem mem_of_mem_addTransaction {new : PoolEntry Fields} {discards : Option (List B256)}
    (h : entry ∈ (pool.addTransaction new discards).entries) :
    entry = new ∨ entry ∈ pool.entries := by
  unfold addTransaction at h
  split at h
  · exact Or.inr h
  · split at h
    · exact Or.inr h
    · exact List.mem_cons.mp (mem_removeTransactions.mp h).1

/-- A submission under a known hash leaves the pool as it is. -/
theorem addTransaction_of_get (new : PoolEntry Fields) (discards : Option (List B256))
    (h : pool.get (new.hash f) = some entry) : pool.addTransaction new discards = pool := by
  obtain ⟨hm, he⟩ := get_eq_some_iff.mp h
  exact dif_pos (he ▸ List.mem_map_of_mem hm)

theorem mem_hashes_removeTransactions :
    hash ∈ (pool.removeTransactions hashes).allTransactionHashes ↔
      hash ∈ pool.allTransactionHashes ∧ hash ∉ hashes := by
  simp only [allTransactionHashes, List.mem_map, mem_removeTransactions]
  constructor
  · rintro ⟨entry, ⟨hm, hn⟩, rfl⟩
    exact ⟨⟨entry, hm, rfl⟩, hn⟩
  · rintro ⟨⟨entry, hm, rfl⟩, hn⟩
    exact ⟨entry, ⟨hm, hn⟩, rfl⟩

/-- An entry that is let in takes the place of what the pool discards. -/
theorem mem_hashes_addTransaction (h : entry.hash f ∉ pool.allTransactionHashes) :
    hash ∈ (pool.addTransaction entry (some hashes)).allTransactionHashes ↔
      (hash = entry.hash f ∨ hash ∈ pool.allTransactionHashes) ∧ hash ∉ hashes := by
  rw [addTransaction, dif_neg h]
  dsimp only
  rw [mem_hashes_removeTransactions]
  exact and_congr_left fun _ => List.mem_cons

end TxPool

end AnvilReth
