import Xv6.Kernel.AddressSpace
import Xv6.Kernel.CopyLoops

/-! # Access to user memory

`walkaddr`, `copyout` and `copyin` go through the page table of the process, so they
reach pages that its table owns and nothing else.
-/

namespace Xv6.Kernel

open Lib

section Access

variable {L : Layout} {k k' : KState} {free : List Nat} {t : Tree} {root v : Nat} {x : Leaf}
variable {va pte w : Nat}

/-- A write to a page of the process changes no page table. -/
theorem leafWrite_spec {mem' : Bytes} (ok : Holds L k free (treePages t))
    (table : Table k.mem root t) (some_ : leafAt t v = some x) (user : x.user = true)
    (within : Within (pte2pa x.pte) k.mem mem') :
    Table mem' root t ∧
      Exchange k { k with mem := mem' } free (treePages t) free (treePages t) := by
  have owned : pte2pa x.pte ∈ x.pages := by
    rw [Leaf.pages, if_pos user]
    exact Multiset.mem_singleton_self _
  have mine : pte2pa x.pte ∈ treePages t :=
    Multiset.mem_of_le (Radix.get_pages_le (by decide) some_) owned
  have apart := Radix.value_not_node (by decide) ok.held_nodup some_ owned
  have nodes := Radix.nodes_le_pages (b := 512) (f := Leaf.pages) t
  refine ⟨⟨table.1, table.2.frame (f := fun _ => 0) fun q mem j low => ?_⟩, .write ok mine within⟩
  refine word_of_samePage (within.samePage (ok.held_page mine).aligned
    (ok.held_page (Multiset.mem_of_le nodes mem)).aligned fun same => ?_) low
  exact apart (same ▸ mem)

theorem leaf_page (ok : Holds L k free (treePages t)) (some_ : leafAt t v = some x)
    (user : x.user = true) : IsPage L (pte2pa x.pte) := by
  have owned : pte2pa x.pte ∈ x.pages := by
    rw [Leaf.pages, if_pos user]
    exact Multiset.mem_singleton_self _
  exact ok.held_page (Multiset.mem_of_le (Radix.get_pages_le (by decide) some_) owned)

/-! ## walkaddr -/

/-- The page behind an address that user code may reach, or 0. -/
def reach (t : Tree) (va : Nat) : Nat :=
  match leafAt t (vpn va) with
  | some x => if va ≥ MAXVA ∨ x.pte &&& PTE_U = 0 then 0 else pte2pa x.pte
  | none => 0

theorem walkaddr_eq (ok : Holds L k free (treePages t)) (table : Table k.mem root t) (va : Nat) :
    walkaddr root va k = .ok (reach t va, k) := by
  rw [walkaddr]
  by_cases high : va ≥ MAXVA
  · have zero : reach t va = 0 := by
      rw [reach]
      split
      · rw [if_pos (.inl high)]
      · rfl
    rw [zero]
    simp only [if_pos high]
    rfl
  · simp only [if_neg high]
    have walked := walk_eq ok table (Nat.not_le.mp high)
    rw [entryAddr, px_eq_digit] at walked
    rw [reach]
    cases at_ : Radix.slot 512 3 (vpn va) t with
    | none =>
      rw [at_, Option.elim_none] at walked
      rw [run_bind walked]
      cases some_ : leafAt t (vpn va) with
      | none => rfl
      | some x =>
        obtain ⟨p, found⟩ := Radix.slot_of_get some_
        rw [at_] at found
        cases found
    | some p =>
      have page := ok.held_page (Radix.slot_mem (f := Leaf.pages) (by decide) at_)
      have nonzero : p + 8 * Radix.digit 512 0 (vpn va) ≠ 0 :=
        Nat.ne_of_gt (Nat.add_pos_left (Nat.pos_of_ne_zero page.ne_zero) _)
      rw [at_, Option.elim_some] at walked
      rw [run_bind walked]
      simp only [if_neg nonzero]
      rw [run_bind (show load64 _ k = .ok (word k.mem p (Radix.digit 512 0 (vpn va)), k) from rfl)]
      cases some_ : leafAt t (vpn va) with
      | none =>
        rw [word_of_none table at_ some_]
        rfl
      | some x =>
        have good := ok_of_some table at_ some_
        rw [good.word]
        simp only [if_neg good.leaf.valid, high, false_or]
        split
        · rfl
        · rfl

/-- A leaf that user code may use is its own. -/
theorem isUser_of_flag (table : Table k.mem root t) (some_ : leafAt t v = some x)
    (flag : x.pte &&& PTE_U ≠ 0) : x.user = true := by
  obtain ⟨p, at_⟩ := Radix.slot_of_get some_
  by_contra not_
  exact flag ((ok_of_some table at_ some_).kernel (by simpa using not_))

theorem reach_user (table : Table k.mem root t) (nonzero : reach t va ≠ 0) :
    ∃ x, leafAt t (vpn va) = some x ∧ x.user = true ∧ reach t va = pte2pa x.pte := by
  rw [reach] at nonzero ⊢
  cases some_ : leafAt t (vpn va) with
  | none =>
    rw [some_] at nonzero
    exact absurd rfl nonzero
  | some x =>
    simp only [some_] at nonzero ⊢
    split at nonzero
    · exact absurd rfl nonzero
    · rename_i reached
      exact ⟨x, rfl, isUser_of_flag table some_ fun zero => reached (.inr zero), if_neg reached⟩

theorem reach_mapped (low : va < MAXVA) (some_ : leafAt t (vpn va) = some ⟨pte, true⟩)
    (user : pte &&& PTE_U ≠ 0) :
    reach t va = pte2pa pte := by
  rw [reach, some_]
  exact if_neg (by
    rintro (high | zero)
    · exact absurd low (Nat.not_lt.mpr high)
    · exact user zero)

theorem reachWrite_spec {a n : Nat} (src : Bytes) (ok : Holds L k free (treePages t))
    (table : Table k.mem root t) (nonzero : reach t va ≠ 0) (low : reach t va ≤ a)
    (high : a + n ≤ reach t va + PGSIZE) :
    ∃ k', writeBytes a n src k = .ok ((), k') ∧ Table k'.mem root t ∧
      Exchange k k' free (treePages t) free (treePages t) := by
  obtain ⟨x, some_, user, same⟩ := reach_user table nonzero
  exact ⟨{ k with mem := k.mem.splice a n src }, rfl,
    leafWrite_spec ok table some_ user (same ▸ within_splice low high)⟩

/-! ## copyout and copyin -/

theorem reach_low (nonzero : reach t va ≠ 0) : va < MAXVA := by
  rw [reach] at nonzero
  split at nonzero
  · split at nonzero
    · exact absurd rfl nonzero
    · omega
  · exact absurd rfl nonzero

theorem reach_page {va' : Nat} (page : vpn va = vpn va') : reach t va = reach t va' := by
  have limit : va ≥ MAXVA ↔ va' ≥ MAXVA := by
    unfold vpn PGSIZE at page
    unfold MAXVA
    omega
  simp only [reach, page, limit]

theorem place_injective (ok : Holds L k free (treePages t)) (table : Table k.mem root t)
    {va' : Nat} (nonzero : reach t va ≠ 0) (nonzero' : reach t va' ≠ 0)
    (same : place (reach t) va = place (reach t) va') : va = va' := by
  have low := reach_low nonzero
  have low' := reach_low nonzero'
  obtain ⟨x, some_, user, page⟩ := reach_user table nonzero
  obtain ⟨x', some', user', page'⟩ := reach_user table nonzero'
  have aligned := (leaf_page ok some_ user).aligned
  have aligned' := (leaf_page ok some' user').aligned
  rw [place, place, page, page'] at same
  have pages : pte2pa x.pte = pte2pa x'.pte ∧ va % PGSIZE = va' % PGSIZE := by
    unfold PGSIZE at *
    omega
  have keys := Radix.key_unique (m := pte2pa x.pte) (by decide) ok.held_nodup some_ some'
    (by simp [Leaf.pages, user]) (by simp [Leaf.pages, user', pages.1])
  unfold vpn PGSIZE MAXVA at *
  omega

/-- The copy loops go through the pages of the tree, and leave the tree as it is. -/
theorem reach_frames (ok : Holds L k free (treePages t)) (table : Table k.mem root t) :
    Frames root (reach t) fun k' => Table k'.mem root t ∧
      Exchange k k' free (treePages t) free (treePages t) where
  walk good va := by
    rw [walkaddr_eq (ok.exchange good.2) good.1, reach_page (vpn_pgRoundDown va)]
  page := reach_page
  low := reach_low
  once := place_injective ok table
  write := by
    intro k₁ va mem' good nonzero within
    obtain ⟨x, some_, user, same⟩ := reach_user good.1 nonzero
    obtain ⟨table', written⟩ :=
      leafWrite_spec (ok.exchange good.2) good.1 some_ user (same ▸ within)
    exact ⟨table', good.2.trans written⟩

theorem copyout_spec (dstva : Nat) (src : Bytes) (len : Nat) (ok : Holds L k free (treePages t))
    (table : Table k.mem root t) :
    ∃ r k', copyout root dstva src len k = .ok (r, k') ∧ Table k'.mem root t ∧
      Exchange k k' free (treePages t) free (treePages t) := by
  obtain ⟨r, k', ran, ⟨table', exchange⟩, -⟩ := (reach_frames ok table).copyoutLoop
    ⟨table, .refl ok.chain⟩ dstva (Nat.le_refl len) src
  exact ⟨r, k', ran, table', exchange⟩

theorem copyin_spec (srcva len : Nat) (ok : Holds L k free (treePages t))
    (table : Table k.mem root t) : ∃ r, copyin root srcva len k = .ok (r, k) := by
  obtain ⟨bytes, done, ran, -⟩ := (reach_frames ok table).copyinLoop ⟨table, .refl ok.chain⟩ srcva
    (Nat.le_refl len) []
  exact ⟨_, ran⟩

theorem copyinstr_spec (srcva max : Nat) (ok : Holds L k free (treePages t))
    (table : Table k.mem root t) :
    ∃ r, copyinstr root srcva max k = .ok (r, k) ∧ r.1.length ≤ max := by
  obtain ⟨bytes, done, ran, copied⟩ := (reach_frames ok table).copyinstrLoop
    ⟨table, .refl ok.chain⟩ srcva (Nat.le_refl max) []
  exact ⟨_, ran, copied.short⟩

/-! ## uvmclear -/

def clearU (w : Nat) : Nat := w &&& (2 ^ 64 - 1 - PTE_U)

theorem clearU_pte2pa (small : w < 2 ^ 64) : pte2pa (clearU w) = pte2pa w := by
  have high : (2 ^ 64 - 1 - PTE_U) >>> 10 = 2 ^ 54 - 1 := by decide
  rw [clearU, pte2pa, Nat.shiftRight_and_distrib, high, Nat.and_two_pow_sub_one_eq_mod,
    Nat.mod_eq_of_lt, pte2pa]
  rw [Nat.shiftRight_eq_div_pow]
  omega

theorem clearU_leaf (leaf : LeafPte w) : LeafPte (clearU w) where
  small := Nat.lt_of_le_of_lt Nat.and_le_left leaf.small
  low := by
    have low : w % 2 ^ 2 = 3 := leaf.low
    change (w &&& (2 ^ 64 - 1 - PTE_U)) % 2 ^ 2 = 3
    rw [Nat.and_mod_two_pow, low]
    decide

theorem uvmclear_run (walked : walk root (PGSIZE * v) false k = .ok (pte, k)) (nonzero : pte ≠ 0)
    (loaded : k.mem.getLE pte 8 = w) :
    uvmclear root (PGSIZE * v) k =
      .ok ((), { k with mem := k.mem.splice pte 8 (Bytes.digits (clearU w)) }) := by
  rw [uvmclear, run_bind walked]
  simp only [if_neg nonzero]
  rw [run_bind (show load64 pte k = .ok (w, k) by rw [← loaded]; rfl)]
  rfl

theorem uvmclear_spec (ok : Holds L k free (treePages t)) (table : Table k.mem root t)
    (low : v < 2 ^ 26) (some_ : leafAt t v = some ⟨pte, true⟩) :
    ∃ k' t', uvmclear root (PGSIZE * v) k = .ok ((), k') ∧ Table k'.mem root t' ∧
      Exchange k k' free (treePages t) free (treePages t') ∧
      ∀ u, u < 2 ^ 27 → leafAt t' u = if u = v then some ⟨clearU pte, true⟩ else leafAt t u := by
  obtain ⟨p, at_, mine, walked, nonzero, good⟩ := walk_leaf ok table low some_
  have inside : Radix.digit 512 0 v < 512 := Radix.digit_lt (by decide) 0 v
  have leaf : LeafPte (clearU pte) := clearU_leaf good.leaf
  have nodes := Radix.nodes_le_pages (b := 512) (f := Leaf.pages) t
  have accounts := pages_set_entry table at_ (.leaf ⟨clearU pte, true⟩)
  have samePages : (Leaf.mk (clearU pte) true).pages = (Leaf.mk pte true).pages := by
    rw [Leaf.pages, Leaf.pages, clearU_pte2pa good.leaf.small]
  rw [some_, Option.map_some, Option.getD_some, treePages, treePages, treePages,
    Radix.pages_leaf, samePages, add_left_inj] at accounts
  refine ⟨_, Radix.set 512 (.leaf ⟨clearU pte, true⟩) 3 v t,
    uvmclear_run walked nonzero good.word,
    table.set (Multiset.nodup_of_le nodes ok.held_nodup)
      (fun q mem => (ok.held_page (Multiset.mem_of_le nodes mem)).aligned) at_ leaf.small
      ⟨rfl, leaf, fun not_ => Bool.noConfusion not_⟩,
    ?_, leafAt_set _ (Nat.lt_trans low (by decide)) at_⟩
  rw [treePages, treePages, accounts]
  exact .write ok mine (within_store inside)

end Access

end Xv6.Kernel
