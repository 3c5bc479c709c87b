import Mathlib.Logic.Function.Basic
import Mathlib.Data.List.Nodup
import Mathlib.Data.List.AList

/-!
# Batches of writes to a map

A key-value store modelled as a function `κ → ν`, and a batch of writes applied to it first to
last (`FunMap.writeAll`), as a database batch or a loop of assignments applies them.

* `FunMap.writeAll_of_not_mem`: a key the batch does not write reads as before;
* `FunMap.writeAll_of_mem`: a key the batch writes once reads the value written;
* `FunMap.writeAll_eq_or_mem`: any key reads as before or one of the values written to it.

A finite map kept as an association list (`AList`), and a batch of keyed updates run over it
first to last, each of which may fail (`AList.foldlM_setOpt`): when the batch's keys are distinct,
it succeeds as soon as each update succeeds on the original map, and each key ends as it was or
with its update of the original value.
-/

namespace FunMap

variable {κ ν : Type} [DecidableEq κ]

/-- The map after the writes of `l`, first to last. -/
def writeAll (f : κ → ν) (l : List (κ × ν)) : κ → ν :=
  l.foldl (fun f w => Function.update f w.1 w.2) f

@[simp]
theorem writeAll_nil (f : κ → ν) : writeAll f [] = f := rfl

theorem writeAll_cons (f : κ → ν) (w : κ × ν) (l : List (κ × ν)) :
    writeAll f (w :: l) = writeAll (Function.update f w.1 w.2) l := rfl

theorem writeAll_of_not_mem {f : κ → ν} {l : List (κ × ν)} {k : κ} (hk : k ∉ l.map Prod.fst) :
    writeAll f l k = f k := by
  induction l generalizing f with
  | nil => rfl
  | cons w l ih =>
    simp only [List.map_cons, List.mem_cons, not_or] at hk
    rw [writeAll_cons, ih hk.2, Function.update_of_ne hk.1]

theorem writeAll_of_mem {f : κ → ν} {l : List (κ × ν)} {k : κ} {v : ν}
    (hnd : (l.map Prod.fst).Nodup) (hkv : (k, v) ∈ l) : writeAll f l k = v := by
  induction l generalizing f with
  | nil => simp at hkv
  | cons w l ih =>
    rw [List.map_cons, List.nodup_cons] at hnd
    rw [writeAll_cons]
    rcases List.mem_cons.1 hkv with rfl | hkv
    · rw [writeAll_of_not_mem hnd.1, Function.update_self]
    · exact ih hnd.2 hkv

theorem writeAll_eq_or_mem (f : κ → ν) (l : List (κ × ν)) (k : κ) :
    writeAll f l k = f k ∨ (k, writeAll f l k) ∈ l := by
  induction l generalizing f with
  | nil => exact Or.inl rfl
  | cons w l ih =>
    rw [writeAll_cons]
    rcases ih (Function.update f w.1 w.2) with h | h
    · by_cases hk : k = w.1
      · subst hk
        right
        rw [h, Function.update_self]
        exact List.mem_cons_self
      · left
        rw [h, Function.update_of_ne hk]
    · exact Or.inr (List.mem_cons_of_mem _ h)

end FunMap

namespace AList

variable {κ V W ε : Type} [DecidableEq κ]

/-- The map with `k` bound to `v`, or with no binding for `k`. -/
def setOpt (m : AList (fun _ : κ => V)) (k : κ) : Option V → AList (fun _ : κ => V)
  | some v => m.insert k v
  | none => m.erase k

@[simp]
theorem lookup_setOpt_self (m : AList (fun _ : κ => V)) (k : κ) (v : Option V) :
    (m.setOpt k v).lookup k = v := by
  cases v <;> simp [setOpt]

theorem lookup_setOpt_ne {m : AList (fun _ : κ => V)} {k k' : κ} (v : Option V) (h : k' ≠ k) :
    (m.setOpt k v).lookup k' = m.lookup k' := by
  cases v <;> simp [setOpt, AList.lookup_insert_ne h, AList.lookup_erase_ne h]

/-- **A batch of keyed updates**: running `g` on each entry of `l`, whose keys are distinct, to
replace the value at its key succeeds when each entry's update of the original value does, and
leaves each key as it was, when `l` has no entry for it, or with the update of its original
value. -/
theorem foldlM_setOpt (g : Option V → W → Except ε (Option V)) :
    ∀ {l : List (Σ _ : κ, W)} {m : AList (fun _ : κ => V)}, l.NodupKeys →
      (∀ s ∈ l, ∃ r, g (m.lookup s.1) s.2 = .ok r) →
      ∃ m', l.foldlM (fun m s => (g (m.lookup s.1) s.2).map (m.setOpt s.1)) m = .ok m' ∧
        ∀ k, (l.dlookup k = none ∧ m'.lookup k = m.lookup k) ∨
          ∃ x, l.dlookup k = some x ∧ g (m.lookup k) x = .ok (m'.lookup k)
  | [], m, _, _ => ⟨m, rfl, fun _ => Or.inl ⟨rfl, rfl⟩⟩
  | ⟨k₀, x₀⟩ :: l, m, hnd, hg => by
    rw [List.nodupKeys_cons] at hnd
    obtain ⟨r, hr⟩ := hg ⟨k₀, x₀⟩ List.mem_cons_self
    have hother : ∀ t ∈ l, (m.setOpt k₀ r).lookup t.1 = m.lookup t.1 := fun t ht =>
      lookup_setOpt_ne r fun h => hnd.1 (h ▸ List.mem_keys.2 ⟨t.2, ht⟩)
    obtain ⟨m', hrun, hm'⟩ := foldlM_setOpt g hnd.2 fun t ht =>
      hother t ht ▸ hg t (List.mem_cons_of_mem _ ht)
    refine ⟨m', by rw [List.foldlM_cons, hr]; exact hrun, fun k => ?_⟩
    by_cases hk : k = k₀
    · subst hk
      have hnone : l.dlookup k = none := List.dlookup_eq_none.2 hnd.1
      rcases hm' k with ⟨-, h⟩ | ⟨x, hx, -⟩
      · exact Or.inr ⟨x₀, List.dlookup_cons_eq _ _ _, by rw [h, lookup_setOpt_self, hr]⟩
      · rw [hnone] at hx
        cases hx
    · rw [List.dlookup_cons_ne _ _ hk]
      rcases hm' k with ⟨hn, h⟩ | ⟨x, hx, h⟩
      · exact Or.inl ⟨hn, by rw [h, lookup_setOpt_ne r hk]⟩
      · exact Or.inr ⟨x, hx, by rwa [lookup_setOpt_ne r hk] at h⟩

end AList
