import HdWallet.Account.Drain
import Mathlib.Data.List.Nodup

/-!
# Requests by address

A pass keeps the requests that wait for answers by their addresses. Of several requests about one
address the last is kept, and those before it make room.
-/

namespace HdWallet

namespace Drain

variable {waiting : Std.ExtTreeMap Address RetryRequest}

theorem getElem?_erase (waiting : Std.ExtTreeMap Address RetryRequest) (address other : Address) :
    (waiting.erase address)[other]? = if address = other then none else waiting[other]? := by
  simp only [Std.ExtTreeMap.getElem?_erase, Std.compare_eq_iff_eq]

theorem values_eq (waiting : Std.ExtTreeMap Address RetryRequest) :
    waiting.values = waiting.toList.map (·.2) := by
  have folded : waiting.values = waiting.foldr (fun _ r rest => r :: rest) [] := by
    obtain ⟨⟨q⟩⟩ := waiting
    rfl
  rw [folded, Std.ExtTreeMap.foldr_eq_foldr_toList]
  induction waiting.toList with
  | nil => rfl
  | cons entry rest ih => rw [List.foldr_cons, ih, List.map_cons]

theorem mem_values {r : RetryRequest} :
    r ∈ waiting.values ↔ ∃ address : Address, waiting[address]? = some r := by
  rw [values_eq, List.mem_map]
  constructor
  · rintro ⟨⟨address, _⟩, listed, rfl⟩
    exact ⟨address, Std.ExtTreeMap.mem_toList_iff_getElem?_eq_some.mp listed⟩
  · rintro ⟨address, waits⟩
    exact ⟨(address, r), Std.ExtTreeMap.mem_toList_iff_getElem?_eq_some.mpr waits, rfl⟩

theorem nodup_toList (waiting : Std.ExtTreeMap Address RetryRequest) : waiting.toList.Nodup := by
  apply (Std.ExtTreeMap.distinct_keys_toList (t := waiting)).imp
  rintro x _ apart rfl
  exact apart Std.ReflCmp.compare_self

theorem perm_values_erase {address : Address} {request : RetryRequest}
    (waits : waiting[address]? = some request) :
    waiting.values.Perm (request :: (waiting.erase address).values) := by
  have entries : waiting.toList.Perm ((address, request) :: (waiting.erase address).toList) := by
    rw [List.perm_ext_iff_of_nodup (nodup_toList waiting)]
    · rintro ⟨other, r⟩
      rw [List.mem_cons, Std.ExtTreeMap.mem_toList_iff_getElem?_eq_some,
        Std.ExtTreeMap.mem_toList_iff_getElem?_eq_some, getElem?_erase]
      by_cases here : address = other
      · subst here
        rw [waits]
        simp [eq_comm]
      · simp [here, Ne.symm here]
    · rw [List.nodup_cons, Std.ExtTreeMap.mem_toList_iff_getElem?_eq_some,
        Std.ExtTreeMap.getElem?_erase_self]
      exact ⟨nofun, nodup_toList _⟩
  rw [values_eq, values_eq]
  exact entries.map _

theorem perm_values_insert (waiting : Std.ExtTreeMap Address RetryRequest) (address : Address)
    (request : RetryRequest) :
    ((waiting.insert address request).values ++ waiting[address]?.toList).Perm
      (request :: waiting.values) := by
  have others : (waiting.insert address request).erase address = waiting.erase address := by
    apply Std.ExtTreeMap.ext_getElem?
    intro other
    simp only [Std.ExtTreeMap.getElem?_erase, Std.ExtTreeMap.getElem?_insert]
    split <;> rfl
  have inserted : (waiting.insert address request).values.Perm
      (request :: ((waiting.insert address request).erase address).values) :=
    perm_values_erase Std.ExtTreeMap.getElem?_insert_self
  rw [others] at inserted
  refine (inserted.append_right _).trans (List.Perm.cons request ?_)
  cases waits : waiting[address]? with
  | none =>
      have same : waiting.erase address = waiting := by
        apply Std.ExtTreeMap.ext_getElem?
        intro other
        rw [getElem?_erase]
        split
        next here => rw [← here, waits]
        next => rfl
      rw [same]
      exact .of_eq (List.append_nil _)
  | some held => exact List.perm_append_comm.trans (perm_values_erase waits).symm

/-- The requests that make room for later ones about the same address. -/
def overtaken (waiting : Std.ExtTreeMap Address RetryRequest) :
    List RetryRequest → List RetryRequest
  | [] => []
  | r :: rest => waiting[r.address]?.toList ++ overtaken (waiting.insert r.address r) rest

theorem values_empty : (∅ : Std.ExtTreeMap Address RetryRequest).values = [] := by
  rw [values_eq, List.map_eq_nil_iff, Std.ExtTreeMap.toList_eq_nil_iff]

theorem perm_byAddress (requests : List RetryRequest) :
    ((byAddress requests).values ++ overtaken ∅ requests).Perm requests := by
  have inserting (waiting : Std.ExtTreeMap Address RetryRequest) :
      ((requests.foldl (fun waiting r => waiting.insert r.address r) waiting).values ++
        overtaken waiting requests).Perm (waiting.values ++ requests) := by
    induction requests generalizing waiting with
    | nil => exact .refl _
    | cons r rest ih =>
        rw [List.perm_iff_count]
        intro x
        have here := (perm_values_insert waiting r.address r).count_eq x
        have later := (ih (waiting.insert r.address r)).count_eq x
        simp only [List.foldl_cons, overtaken, List.count_append, List.count_cons]
          at here later ⊢
        omega
  have inserted := inserting ∅
  rw [values_empty, List.nil_append] at inserted
  rwa [byAddress, Std.ExtTreeMap.ofList_eq_foldl, List.foldl_map]

/-- What holds of each request and its own address holds of what waits by address. -/
theorem forall_byAddress {P : Address → RetryRequest → Prop} {requests : List RetryRequest}
    (own : ∀ r ∈ requests, P r.address r) {address : Address} {r : RetryRequest} :
    (byAddress requests)[address]? = some r → P address r := by
  have inserting (waiting : Std.ExtTreeMap Address RetryRequest)
      (before : ∀ r, waiting[address]? = some r → P address r) :
      (requests.foldl (fun waiting r => waiting.insert r.address r) waiting)[address]? = some r →
        P address r := by
    induction requests generalizing waiting with
    | nil => exact before r
    | cons first rest ih =>
        apply ih (fun r listed => own r (List.mem_cons_of_mem first listed))
        intro r waits
        rw [Std.ExtTreeMap.getElem?_insert] at waits
        split at waits
        next here =>
            obtain rfl := Std.LawfulEqCmp.eq_of_compare here
            exact Option.some.inj waits ▸ own first List.mem_cons_self
        next => exact before r waits
  rw [byAddress, Std.ExtTreeMap.ofList_eq_foldl, List.foldl_map]
  exact inserting ∅ fun r waits => absurd waits (by simp)

/-- Where no two requests are about the same address, none makes room. -/
theorem overtaken_eq_nil {requests : List RetryRequest}
    (distinct : (requests.map (·.address)).Nodup)
    (free : ∀ r ∈ requests, waiting[r.address]? = none) : overtaken waiting requests = [] := by
  induction requests generalizing waiting with
  | nil => rfl
  | cons r rest ih =>
      obtain ⟨apart, distinct⟩ := List.nodup_cons.mp distinct
      rw [overtaken, free r List.mem_cons_self, Option.toList_none, List.nil_append]
      apply ih distinct
      intro other listed
      have different : r.address ≠ other.address := fun same =>
        apart (List.mem_map.mpr ⟨other, listed, same.symm⟩)
      rw [Std.ExtTreeMap.getElem?_insert]
      simp [different, free other (List.mem_cons_of_mem _ listed)]

end Drain

end HdWallet
