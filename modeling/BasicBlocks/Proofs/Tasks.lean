import BasicBlocks.Task

/-!
# Tasks in sequence

How a task ends that begins with another one, by the way the first one ends.
-/

namespace BasicBlocks.Task

variable {ε α β : Type} {t : Task ε α} {f : α → Task ε β} {fs fs' : FileSystem}
  {events : List Event}

theorem pure_eq (a : α) (fs : FileSystem) : (pure a : Task ε α) fs = ⟨fs, [], .ok a⟩ := rfl

theorem bind_of_ok {a : α} (h : t fs = ⟨fs', events, .ok a⟩) :
    (t >>= f) fs = ⟨(f a fs').files, events ++ (f a fs').events, (f a fs').result⟩ := by
  simp only [bind, h]

theorem bind_of_silent {a : α} (h : t fs = ⟨fs', [], .ok a⟩) : (t >>= f) fs = f a fs' :=
  bind_of_ok h

theorem ask_bind (g : FileSystem → α) (f : α → Task ε β) (fs : FileSystem) :
    (ask g >>= f) fs = f (g fs) fs := rfl

theorem tell_bind_of_ok {g : FileSystem → Except ε α} {a : α} (h : g fs = .ok a)
    (f : α → Task ε β) : (tell g >>= f) fs = f a fs :=
  bind_of_silent (by rw [tell, h])

theorem bind_of_error {e : ε} (h : t fs = ⟨fs', events, .error e⟩) :
    (t >>= f) fs = ⟨fs', events, .error e⟩ := by
  simp only [bind, h]

theorem tell_bind_of_error {g : FileSystem → Except ε α} {e : ε} (h : g fs = .error e)
    (f : α → Task ε β) : (tell g >>= f) fs = ⟨fs, [], .error e⟩ :=
  bind_of_error (by rw [tell, h])

theorem map_eq (g : α → β) (t : Task ε α) (fs : FileSystem) :
    (g <$> t) fs = ⟨(t fs).files, (t fs).events, (t fs).result.map g⟩ := by
  change (t >>= fun a => pure (g a)) fs = _
  rcases h : t fs with ⟨changed, events, fault | a⟩
  · rw [bind_of_error h]
    rfl
  · rw [bind_of_ok h]
    exact congrArg (Ending.mk _ · _) (List.append_nil events)

/-- A task that cannot fail, before one that only gives a value. -/
theorem infallible_bind_pure (t : Task Empty α) (b : β) (fs : FileSystem) :
    ((t.mapFault Empty.elim : Task ε α) >>= fun _ => pure b) fs =
      ⟨(t fs).files, (t fs).events, .ok b⟩ := by
  simp only [bind, pure, mapFault]
  cases (t fs).result with
  | error impossible => exact impossible.elim
  | ok a => exact congrArg (Ending.mk _ · _) (List.append_nil _)

theorem outcome_change_of_ok {δ : Type} {g : FileSystem → Except ε FileSystem}
    (h : g fs = .ok fs') :
    ((change g).outcome : Task δ (Except ε Unit)) fs = ⟨fs', [], .ok (.ok ())⟩ := by
  simp only [outcome, change, h]

theorem outcome_change_of_error {δ : Type} {g : FileSystem → Except ε FileSystem} {e : ε}
    (h : g fs = .error e) :
    ((change g).outcome : Task δ (Except ε Unit)) fs = ⟨fs, [], .ok (.error e)⟩ := by
  simp only [outcome, change, h]

end BasicBlocks.Task
