import Mathlib.Algebra.Order.BigOperators.Group.Finset
import Mathlib.Data.Fintype.OfMap
import Mathlib.Data.Fintype.Prod
import ParticleChain.Proofs.Evm.Layers
import ParticleChain.Proofs.Word.Carry

/-!
# The sum of all balances

The supply of a view is the sum of its balances over all addresses, that of a world the sum over
its accounts (`supply_ofWorld`). A write moves the supply by the balance written less the balance
that was there (`supply_setAccount`), so a transfer of a balance that is there keeps it
(`supply_transfer`), and as long as the supply is less than `2^256` no transfer wraps
(`exact_of_le`).
-/

namespace ParticleChain

noncomputable instance Address.fintype : Fintype Address :=
  .ofInjective (fun a => (a.a0.toFin, a.a1.toFin, a.a2.toFin)) fun a b h => by
    simp only [Prod.mk.injEq, UInt64.toFin_inj, UInt32.toFin_inj] at h
    exact Address.ext h.1 h.2.1 h.2.2

/-- A sum after one of its terms is replaced. -/
theorem sum_update {α : Type} [Fintype α] [DecidableEq α] (f : α → Nat) (a : α) (n : Nat) :
    (∑ b, if b = a then n else f b) + f a = (∑ b, f b) + n := by
  have hf := Finset.add_sum_erase Finset.univ f (Finset.mem_univ a)
  have hg := Finset.add_sum_erase Finset.univ (fun b => if b = a then n else f b)
    (Finset.mem_univ a)
  have he : ∑ b ∈ Finset.univ.erase a, (if b = a then n else f b) =
      ∑ b ∈ Finset.univ.erase a, f b :=
    Finset.sum_congr rfl fun b hb => if_neg (Finset.ne_of_mem_erase hb)
  rw [if_pos rfl, he] at hg
  omega

namespace Evm

/-- The sum of the balances of all accounts. -/
def World.supply (w : World) : Nat :=
  w.accounts.toList.foldr (fun p n => p.2.balance.toNat + n) 0

namespace View

/-- The sum of the balances at all addresses. -/
noncomputable def supply (v : View) : Nat := ∑ a, (v.balance a).toNat

variable {v w : View}

theorem supply_ofWorld (w : World) : (ofWorld w).supply = w.supply := by
  have keys : (w.accounts.toList.map Prod.fst).Nodup := by
    have hd := Std.TreeMap.distinct_keys_toList (t := w.accounts)
    simp only [Std.compare_eq_iff_eq] at hd
    exact List.pairwise_map.2 hd
  have read : ∀ p ∈ w.accounts.toList, ((ofWorld w).balance p.1).toNat = p.2.balance.toNat := by
    intro p hp
    have hp : w.account? p.1 = some p.2 := Std.TreeMap.mem_toList_iff_getElem?_eq_some.1 hp
    show (((w.account? p.1).getD .fresh).balance).toNat = _
    rw [hp]
    rfl
  have absent : ∀ a, a ∉ w.accounts.toList.map Prod.fst → ((ofWorld w).balance a).toNat = 0 := by
    intro a ha
    show (((w.account? a).getD .fresh).balance).toNat = 0
    cases h : w.account? a with
    | none => rfl
    | some x =>
      have hx : (a, x) ∈ w.accounts.toList := Std.TreeMap.mem_toList_iff_getElem?_eq_some.2 h
      exact absurd (List.mem_map.2 ⟨_, hx, rfl⟩) ha
  calc (ofWorld w).supply
      = ∑ a ∈ (w.accounts.toList.map Prod.fst).toFinset, ((ofWorld w).balance a).toNat := by
        refine (Finset.sum_subset (Finset.subset_univ _) fun a _ ha => absent a ?_).symm
        rwa [List.mem_toFinset] at ha
    _ = ((w.accounts.toList.map Prod.fst).map fun a => ((ofWorld w).balance a).toNat).sum :=
        List.sum_toFinset _ keys
    _ = w.supply := by
        rw [List.map_map, List.map_congr_left (g := fun p => p.2.balance.toNat) read]
        exact List.foldr_map

/-- The supply depends on what is read only. -/
theorem supply_congr (h : ∀ a, w.balance a = v.balance a) : w.supply = v.supply :=
  Finset.sum_congr rfl fun a _ => by rw [h]

theorem supply_setAccount (v : View) (a : Address) (x : Option Account) :
    (v.setAccount a x).supply + (v.balance a).toNat =
      v.supply + (x.getD .fresh).balance.toNat := by
  have h := sum_update (fun b => (v.balance b).toNat) a (x.getD .fresh).balance.toNat
  rw [← show (v.setAccount a x).supply = _ from Finset.sum_congr rfl fun b _ => ?_] at h
  · exact h
  · rw [balance_setAccount]
    split <;> rfl

/-- An account may be written without a change of its balance. -/
theorem supply_setAccount_of_balance {a : Address} {x : Account} (h : x.balance = v.balance a) :
    (v.setAccount a (some x)).supply = v.supply := by
  have hs := v.supply_setAccount a (some x)
  rw [Option.getD_some, h] at hs
  omega

theorem balance_le_supply (v : View) (a : Address) : (v.balance a).toNat ≤ v.supply :=
  Finset.single_le_sum (f := fun a => (v.balance a).toNat) (fun _ _ => Nat.zero_le _)
    (Finset.mem_univ a)

/-! ## Transfers -/

/-- A value taken from an account. -/
def debit (v : View) (a : Address) (x : Word) : View :=
  v.setAccount a (some { v.account a with balance := (v.account a).balance - x })

/-- A value given to an account. -/
def credit (v : View) (a : Address) (x : Word) : View :=
  v.setAccount a (some { v.account a with balance := (v.account a).balance + x })

theorem transfer_eq (v : View) (a b : Address) (x : Word) :
    v.transfer a b x = if x.isZero then v else (v.debit a x).credit b x := rfl

theorem account_debit (v : View) (a b : Address) (x : Word) : (v.debit a x).account b =
    { v.account b with balance := if b = a then v.balance b - x else v.balance b } := by
  rw [debit, account_setAccount]
  split
  · rename_i h
    rw [h]
    rfl
  · rfl

theorem account_credit (v : View) (a b : Address) (x : Word) : (v.credit a x).account b =
    { v.account b with balance := if b = a then v.balance b + x else v.balance b } := by
  rw [credit, account_setAccount]
  split
  · rename_i h
    rw [h]
    rfl
  · rfl

/-- A transfer between two accounts changes their balances and nothing else. -/
theorem account_transfer (v : View) {a b : Address} (h : b ≠ a) (c : Address) (x : Word) :
    (v.transfer a b x).account c = { v.account c with
      balance := if c = a then v.balance c - x else if c = b then v.balance c + x
        else v.balance c } := by
  rw [transfer_eq]
  split
  · rename_i hz
    rw [Word.isZero_iff.1 hz, Word.sub_zero, Word.add_zero, ite_self, ite_self]
    rfl
  · rw [account_credit, balance, account_debit]
    dsimp only
    by_cases hc : c = a
    · rw [if_pos hc, if_pos hc, if_neg (hc ▸ Ne.symm h)]
    · rw [if_neg hc, if_neg hc]

/-- A transfer wraps neither at the sender nor, after that, at the recipient. -/
def Exact (v : View) (a b : Address) (x : Word) : Prop :=
  x.isZero = true ∨ (Word.subBorrow (v.account a).balance x).2 = false ∧
    (Word.addCarry ((v.debit a x).account b).balance x).2 = false

section

variable {a b : Address} {x : Word}

theorem supply_debit (hx : x.toNat ≤ (v.balance a).toNat) :
    (v.debit a x).supply + x.toNat = v.supply := by
  have hs : (v.debit a x).supply + _ = v.supply + ((v.account a).balance - x).toNat :=
    v.supply_setAccount a _
  have hd : ((v.account a).balance - x).toNat = (v.balance a).toNat - x.toNat :=
    Word.toNat_sub_of_le hx
  omega

theorem supply_credit (hx : (v.balance a).toNat + x.toNat < Word.modulus) :
    (v.credit a x).supply = v.supply + x.toNat := by
  have hs : (v.credit a x).supply + _ = v.supply + ((v.account a).balance + x).toNat :=
    v.supply_setAccount a _
  have hd : ((v.account a).balance + x).toNat = (v.balance a).toNat + x.toNat :=
    Word.toNat_add_of_lt hx
  omega

variable (hx : x.toNat ≤ (v.balance a).toNat) (hv : v.supply < Word.modulus)

include hx hv

/-- What the sender has fits at any recipient. -/
theorem balance_debit_add_lt : ((v.debit a x).balance b).toNat + x.toNat < Word.modulus := by
  have hs := supply_debit hx
  have hb := (v.debit a x).balance_le_supply b
  omega

theorem exact_of_le : v.Exact a b x :=
  .inr ⟨Word.subBorrow_snd_eq_false_iff.2 hx,
    Word.addCarry_snd_eq_false_iff.2 (balance_debit_add_lt hx hv)⟩

/-- A transfer of what the sender has keeps the supply. -/
theorem supply_transfer : (v.transfer a b x).supply = v.supply := by
  rw [transfer_eq]
  split
  · rfl
  · rw [supply_credit (balance_debit_add_lt hx hv), supply_debit hx]

end

/-- A transfer of a whole balance leaves none to its sender, if that is not the recipient. -/
theorem balance_transfer_all {a b : Address} (h : b ≠ a) :
    (v.transfer a b (v.balance a)).balance a = .zero := by
  rw [transfer_eq]
  split
  · rename_i hz
    exact Word.isZero_iff.1 hz
  · rw [credit, balance_setAccount, if_neg (Ne.symm h), debit, balance_setAccount, if_pos rfl]
    have hs := Word.toNat_sub_of_le (Nat.le_refl (v.balance a).toNat)
    exact Word.toNat_inj.1 (hs.trans (Nat.sub_self _))

end View

end Evm

end ParticleChain
