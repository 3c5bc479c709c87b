import Mathlib.Data.List.Dedup
import Mathlib.Logic.Relation

/-!
# Worklist search

The search that collects the nodes reachable from a set of roots, in a graph given by each
node's successor list: a set of staged nodes and a set of found nodes; each turn takes a staged
node, finds it, and stages each of its successors that is not found yet. Sets are lists without
duplicates, and a turn takes the first staged node. The search runs on fuel; it has finished
when nothing is staged.

* `Worklist.run_inv`: every run keeps `Inv`, whatever the fuel;
* `Worklist.mem_run_iff`: a finished run has found exactly the nodes reachable from the roots;
* `Worklist.run_finished`: a run with more fuel than there are nodes in a set holding everything
  reachable has finished.
-/

namespace Worklist

variable {α : Type*} [DecidableEq α] (next : α → List α)

/-- A search state: the staged nodes and the found ones. -/
structure State (α : Type*) where
  stage : List α
  found : List α

/-- Stage each of `ys` that is not in `found`, once. -/
def stageAll (found : List α) : List α → List α → List α
  | stage, [] => stage
  | stage, y :: ys => stageAll found (if y ∈ found then stage else stage.insert y) ys

/-- One turn: the first staged node is found, and its successors not found yet are staged. -/
def step : State α → State α
  | ⟨[], found⟩ => ⟨[], found⟩
  | ⟨x :: stage, found⟩ => ⟨stageAll (x :: found) stage (next x), x :: found⟩

/-- `n` turns. -/
def run : Nat → State α → State α
  | 0, s => s
  | n + 1, s => run n (step next s)

/-- The search from `roots`, nothing found yet. -/
def start (roots : List α) : State α := ⟨roots.dedup, []⟩

/-- `y` is reachable from one of `roots` along successor edges. -/
def Reach (roots : List α) (y : α) : Prop :=
  ∃ r ∈ roots, Relation.ReflTransGen (fun a b => b ∈ next a) r y

/-- What every search state keeps: everything staged or found is reachable; every root and
every successor of a found node is staged or found; staged and found nodes are apart, each
set without duplicates. -/
structure Inv (roots : List α) (s : State α) : Prop where
  sound : ∀ y, y ∈ s.stage ∨ y ∈ s.found → Reach next roots y
  roots_mem : ∀ r ∈ roots, r ∈ s.stage ∨ r ∈ s.found
  closed : ∀ x ∈ s.found, ∀ y ∈ next x, y ∈ s.stage ∨ y ∈ s.found
  disjoint : ∀ y ∈ s.stage, y ∉ s.found
  nodup_stage : s.stage.Nodup
  nodup_found : s.found.Nodup

/-! ## Staging -/

variable {next}

theorem mem_stageAll {found : List α} :
    ∀ {stage ys : List α} {y : α},
      y ∈ stageAll found stage ys ↔ y ∈ stage ∨ (y ∈ ys ∧ y ∉ found)
  | stage, [], y => by simp [stageAll]
  | stage, z :: ys, y => by
    rw [stageAll, mem_stageAll]
    split_ifs with hz <;> grind

theorem nodup_stageAll {found : List α} :
    ∀ {stage ys : List α}, stage.Nodup → (stageAll found stage ys).Nodup
  | _, [], h => h
  | stage, z :: ys, h => by
    rw [stageAll]
    split_ifs
    · exact nodup_stageAll h
    · exact nodup_stageAll (h.insert)

/-! ## The invariant -/

theorem start_inv (roots : List α) : Inv next roots (start roots) where
  sound y hy := by
    simp only [start, List.mem_dedup, List.not_mem_nil, or_false] at hy
    exact ⟨y, hy, .refl⟩
  roots_mem r hr := .inl (List.mem_dedup.mpr hr)
  closed x hx := by simp [start] at hx
  disjoint y _ := by simp [start]
  nodup_stage := List.nodup_dedup roots
  nodup_found := List.nodup_nil

theorem step_inv {roots : List α} {s : State α} (h : Inv next roots s) :
    Inv next roots (step next s) := by
  rcases s with ⟨_ | ⟨x, stage⟩, found⟩
  · exact h
  have hx : Reach next roots x := h.sound x (.inl List.mem_cons_self)
  have hxf : x ∉ found := h.disjoint x List.mem_cons_self
  simp only [step]
  refine ⟨?_, ?_, ?_, ?_, nodup_stageAll (List.nodup_cons.mp h.nodup_stage).2,
    List.nodup_cons.mpr ⟨hxf, h.nodup_found⟩⟩
  · rintro y (hy | hy)
    · rcases mem_stageAll.mp hy with hy | ⟨hy, -⟩
      · exact h.sound y (.inl (List.mem_cons_of_mem _ hy))
      · obtain ⟨r, hr, hrx⟩ := hx
        exact ⟨r, hr, hrx.tail hy⟩
    · rcases List.mem_cons.mp hy with rfl | hy
      · exact hx
      · exact h.sound y (.inr hy)
  · intro r hr
    rcases h.roots_mem r hr with hr | hr
    · rcases List.mem_cons.mp hr with rfl | hr
      · exact .inr List.mem_cons_self
      · exact .inl (mem_stageAll.mpr (.inl hr))
    · exact .inr (List.mem_cons_of_mem _ hr)
  · intro z hz y hy
    by_cases hyf : y ∈ x :: found
    · exact .inr hyf
    refine .inl (mem_stageAll.mpr ?_)
    rcases List.mem_cons.mp hz with rfl | hz
    · exact .inr ⟨hy, hyf⟩
    · rcases h.closed z hz y hy with hy' | hy'
      · rcases List.mem_cons.mp hy' with rfl | hy'
        · exact absurd List.mem_cons_self hyf
        · exact .inl hy'
      · exact absurd (List.mem_cons_of_mem _ hy') hyf
  · intro y hy
    rcases mem_stageAll.mp hy with hy | ⟨-, hy⟩
    · rw [List.mem_cons, not_or]
      exact ⟨fun hyx => (List.nodup_cons.mp h.nodup_stage).1 (hyx ▸ hy),
        h.disjoint y (List.mem_cons_of_mem _ hy)⟩
    · exact hy

theorem run_inv {roots : List α} : ∀ (n : Nat) {s : State α}, Inv next roots s →
    Inv next roots (run next n s)
  | 0, _, h => h
  | n + 1, _, h => run_inv n (step_inv h)

/-! ## Finished runs -/

/-- A finished search has found exactly the reachable nodes. -/
theorem mem_run_iff {roots : List α} {n : Nat} (hfin : (run next n (start roots)).stage = [])
    {y : α} : y ∈ (run next n (start roots)).found ↔ Reach next roots y := by
  have h : Inv next roots (run next n (start roots)) := run_inv n (start_inv roots)
  refine ⟨fun hy => h.sound y (.inr hy), ?_⟩
  rintro ⟨r, hr, hry⟩
  induction hry with
  | refl => simpa [hfin] using h.roots_mem r hr
  | tail _ hbc ih => simpa [hfin] using h.closed _ ih _ hbc

theorem run_stage_nil : ∀ (n : Nat) (found : List α),
    run next n ⟨[], found⟩ = ⟨[], found⟩
  | 0, _ => rfl
  | n + 1, found => run_stage_nil n found

/-- Each turn that finds a node adds it: a run still staging after `n` turns has found `n` more
nodes. -/
theorem length_found_run : ∀ (n : Nat) {s : State α}, (run next n s).stage ≠ [] →
    s.found.length + n ≤ (run next n s).found.length
  | 0, _, _ => Nat.le_refl _
  | n + 1, ⟨[], found⟩, h => by
    rw [run, step, run_stage_nil] at h
    exact absurd rfl h
  | n + 1, ⟨x :: stage, found⟩, h => by
    have ih := length_found_run n h
    have hstep : (step next ⟨x :: stage, found⟩).found.length = found.length + 1 := by
      simp [step]
    change found.length + (n + 1) ≤ (run next n (step next ⟨x :: stage, found⟩)).found.length
    omega

/-- A search whose reachable nodes all lie in `U` has finished after more turns than `U` has
entries. -/
theorem run_finished {roots U : List α} (hU : ∀ y, Reach next roots y → y ∈ U) {n : Nat}
    (hn : U.length < n) : (run next n (start roots)).stage = [] := by
  by_contra hne
  have hlen := length_found_run n hne
  have h : Inv next roots (run next n (start roots)) := run_inv n (start_inv roots)
  have hsub : (run next n (start roots)).found ⊆ U := fun y hy => hU y (h.sound y (.inr hy))
  have hle := List.Nodup.length_le_of_subset h.nodup_found hsub
  have h0 : (start roots).found.length = 0 := rfl
  omega

end Worklist
