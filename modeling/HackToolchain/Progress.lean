/-! How far a list of fallible steps got. -/
namespace HackToolchain

/-- The values obtained before the first failure, and that failure if there is one. -/
structure Progress (ε α : Type) where
  done : List α
  failure? : Option ε

def Progress.ofResults (results : List (Except ε α)) : Progress ε α :=
  results.foldr
    (fun
      | .ok value, later => ⟨value :: later.done, later.failure?⟩
      | .error e, _ => ⟨[], some e⟩)
    ⟨[], none⟩

def Progress.toExcept (p : Progress ε α) : Except ε (List α) :=
  match p.failure? with
  | none => .ok p.done
  | some e => .error e

/-- Nothing is skipped: the values are those of the results before the first failure. -/
theorem Progress.ofResults_split (results : List (Except ε α)) :
    match (ofResults results).failure? with
    | none => results = (ofResults results).done.map .ok
    | some e => ∃ later, results = (ofResults results).done.map .ok ++ .error e :: later := by
  induction results with
  | nil => rfl
  | cons result rest ih =>
    cases result with
    | error e => exact ⟨rest, rfl⟩
    | ok value =>
      simp only [ofResults, List.foldr_cons] at ih ⊢
      split at ih
      · rename_i none
        simpa only [none, List.map_cons, List.cons.injEq, true_and] using ih
      · rename_i e some
        obtain ⟨later, split⟩ := ih
        exact ⟨later, by rw [List.map_cons, List.cons_append, ← split]⟩

end HackToolchain
