import NowpConsensus.Lib.Abort

/-!
# Writers and readers

A stream format is a writer `w : α → Except ε (List β)` and a reader
`r : List β → Except ε (α × List β)`, which returns what it read and the rest of the stream.
`Codec.ReadsBack w r x y` says that the writer succeeds on `x` and that the reader, on what the
writer wrote followed by anything, reads `y` and leaves what followed; the format round-trips on
`x` when `y = x`. A record is written field after field, so what it reads back is found field by
field; the lemmas here carry it through the two ways a field can differ from a plain one:

* `Codec.ReadsBack.ite`: a field present only under a condition, read as a default when absent;
* `Codec.ReadsBack.map`: a field written through one conversion and read back through another.

A vector is its elements one after another, read by `Codec.readN`: `Codec.readN_flatMap` reads
back the elements' values, `Codec.readN_mapM` does so for a writer that may fail, and
`Codec.readN_eq_ok` says that whatever `readN` reads, it read from the elements' bytes, when the
element reader does.
-/

namespace Codec

variable {ε α γ β : Type}

/-- Reading back what `w` writes for `x` gives `y`. -/
def ReadsBack (w : α → Except ε (List β)) (r : List β → Except ε (α × List β)) (x y : α) :
    Prop :=
  ∃ a, w x = .ok a ∧ ∀ rest, r (a ++ rest) = .ok (y, rest)

/-- A field written only when `c` holds, and read as `d` when it does not. -/
theorem ReadsBack.ite {w : α → Except ε (List β)} {r : List β → Except ε (α × List β)} {x y : α}
    (c : Prop) [Decidable c] (d : α) (h : c → ReadsBack w r x y) :
    ReadsBack (fun x => if c then w x else pure []) (fun s => if c then r s else pure (d, s)) x
      (if c then y else d) := by
  by_cases hc : c
  · obtain ⟨a, hw, hr⟩ := h hc
    exact ⟨a, by simp only [if_pos hc, hw], fun rest => by simp only [if_pos hc, hr]⟩
  · exact ⟨[], by simp only [if_neg hc]; rfl, fun rest => by simp only [if_neg hc]; rfl⟩

/-- A value written through `g` and read back through `f`. -/
theorem ReadsBack.map {w : γ → Except ε (List β)} {r : List β → Except ε (γ × List β)}
    {g : α → γ} {f : γ → α} {x : α} {y : γ} (h : ReadsBack w r (g x) y) :
    ReadsBack (fun x => w (g x)) (fun s => (fun p => (f p.1, p.2)) <$> r s) x (f y) := by
  obtain ⟨a, hw, hr⟩ := h
  refine ⟨a, hw, fun rest => ?_⟩
  show (fun p => (f p.1, p.2)) <$> r (a ++ rest) = _
  rw [hr]
  rfl

/-- `n` values read one after another. -/
def readN (r : List β → Except ε (α × List β)) : Nat → List β → Except ε (List α × List β)
  | 0, s => .ok ([], s)
  | n + 1, s => do
    let (x, s) ← r s
    let (xs, s) ← readN r n s
    pure (x :: xs, s)

/-- The values written for a list's elements, one after another, read back one after another. -/
theorem readN_flatMap {w : γ → List β} {r : List β → Except ε (α × List β)} {f : γ → α}
    {l : List γ} (h : ∀ x ∈ l, ∀ rest, r (w x ++ rest) = .ok (f x, rest)) (rest : List β) :
    readN r l.length (l.flatMap w ++ rest) = .ok (l.map f, rest) := by
  induction l with
  | nil => rfl
  | cons x l ih =>
    rw [List.length_cons, List.flatMap_cons, List.append_assoc, readN, h x List.mem_cons_self,
      Except.bind_ok_left]
    dsimp only
    rw [ih fun y hy => h y (List.mem_cons_of_mem x hy), Except.bind_ok_left]
    rfl

/-- Values each written by a writer that may fail and read back as itself, written one after
another, read back one after another. -/
theorem readN_mapM {w : α → Except ε (List β)} {r : List β → Except ε (α × List β)} {l : List α}
    (h : ∀ x ∈ l, ReadsBack w r x x) :
    ∃ bs, l.mapM w = .ok bs ∧ ∀ rest, readN r l.length (bs.flatten ++ rest) = .ok (l, rest) := by
  induction l with
  | nil => exact ⟨[], rfl, fun rest => rfl⟩
  | cons x l ih =>
    obtain ⟨a, hw, hr⟩ := h x List.mem_cons_self
    obtain ⟨bs, hbs, hrs⟩ := ih fun y hy => h y (List.mem_cons_of_mem x hy)
    refine ⟨a :: bs, by rw [List.mapM_cons, hw, Except.bind_ok_left, hbs]; rfl, fun rest => ?_⟩
    rw [List.length_cons, List.flatten_cons, List.append_assoc, readN, hr, Except.bind_ok_left]
    dsimp only
    rw [hrs, Except.bind_ok_left]
    rfl

/-- What `readN` reads, it read from the bytes of the values, when the element reader reads only
what is written for its value; a property of every value the element reader returns holds of
every value `readN` returns. -/
theorem readN_eq_ok {w : α → List β} {P : α → Prop} {r : List β → Except ε (α × List β)}
    (h : ∀ {s x rest}, r s = .ok (x, rest) → P x ∧ s = w x ++ rest) {n : Nat} {s : List β}
    {xs : List α} {rest : List β} (hr : readN r n s = .ok (xs, rest)) :
    (∀ x ∈ xs, P x) ∧ xs.length = n ∧ s = xs.flatMap w ++ rest := by
  induction n generalizing s xs with
  | zero =>
    cases hr
    exact ⟨fun _ hx => absurd hx List.not_mem_nil, rfl, rfl⟩
  | succ n ih =>
    obtain ⟨⟨x, s₁⟩, hx, h₁⟩ := Except.bind_eq_ok.mp hr
    obtain ⟨⟨xs', s₂⟩, hxs, h₂⟩ := Except.bind_eq_ok.mp h₁
    cases h₂
    obtain ⟨hP, hlen, rfl⟩ := ih hxs
    obtain ⟨hPx, rfl⟩ := h hx
    refine ⟨?_, by rw [List.length_cons, hlen], by rw [List.flatMap_cons, List.append_assoc]⟩
    intro y hy
    rcases List.mem_cons.mp hy with rfl | hy
    · exact hPx
    · exact hP y hy

end Codec
