import PacketTide.Effects.Prog

/-!
# Rules for programs over calls

How runs, failing runs and kills go through the composition of programs, and the rules of `Safe`.
-/

namespace Effects.Prog

variable {C : Type} {R : C → Type} {S E ε ε' α β : Type} {M : Machine R S}

@[simp] theorem pure_eq (a : α) : (pure a : Prog R ε α) = .done (.ok a) := rfl

@[simp] theorem fail_eq (e : ε) : (fail e : Prog R ε α) = .done (.error e) := rfl

@[simp] theorem lift_eq (r : Except ε α) : (lift r : Prog R ε α) = .done r := rfl

@[simp] theorem ok_bind (a : α) (f : α → Prog R ε β) : (.done (.ok a) >>= f) = f a := rfl

@[simp] theorem error_bind (e : ε) (f : α → Prog R ε β) :
    (.done (.error e) >>= f) = .done (.error e) := rfl

@[simp] theorem call_bind (c : C) (next : R c → Prog R ε α) (f : α → Prog R ε β) :
    (.call c next >>= f) = .call c fun r => next r >>= f := rfl

@[simp] theorem request_bind (c : C) (f : R c → Prog R ε β) :
    (request c >>= f) = .call c f := rfl

/-! ## Runs -/

@[simp] theorem run_done (r : Except ε α) (s : S) : (Prog.done (R := R) r).run M s = (r, s) := rfl

@[simp] theorem run_call (c : C) (next : R c → Prog R ε α) (s : S) :
    (Prog.call c next).run M s = (next (M.exec c s).1).run M (M.exec c s).2 := rfl

theorem run_bind (p : Prog R ε α) (f : α → Prog R ε β) (s : S) :
    (p >>= f).run M s =
      match p.run M s with
      | (.ok a, t) => (f a).run M t
      | (.error e, t) => (.error e, t) := by
  induction p generalizing s with
  | done r => cases r <;> rfl
  | call c next ih => exact ih _ _

theorem run_bind_ok {p : Prog R ε α} {f : α → Prog R ε β} {s t : S} {a : α}
    (h : p.run M s = (.ok a, t)) : (p >>= f).run M s = (f a).run M t := by
  rw [run_bind, h]

theorem run_bind_error {p : Prog R ε α} {f : α → Prog R ε β} {s t : S} {e : ε}
    (h : p.run M s = (.error e, t)) : (p >>= f).run M s = (.error e, t) := by
  rw [run_bind, h]

/-- A sequence that ends well went through both of its parts. -/
theorem run_bind_eq_ok {p : Prog R ε α} {f : α → Prog R ε β} {s t : S} {b : β}
    (h : (p >>= f).run M s = (.ok b, t)) :
    ∃ a u, p.run M s = (.ok a, u) ∧ (f a).run M u = (.ok b, t) := by
  rw [run_bind] at h
  rcases hp : p.run M s with ⟨_ | a, u⟩
  · rw [hp] at h
    cases h
  · rw [hp] at h
    exact ⟨a, u, rfl, h⟩

theorem run_attempt (p : Prog R ε α) (s : S) :
    (p.attempt : Prog R ε' (Except ε α)).run M s = (.ok (p.run M s).1, (p.run M s).2) := by
  induction p generalizing s with
  | done r => rfl
  | call c next ih => exact ih _ _

/-! ## How runs end -/

theorem Ends.mono {p : Prog R ε α} {Q Q' : Except ε α → S → Prop} {s : S} (h : Ends M p Q s)
    (hQ : ∀ r t, Q r t → Q' r t) : Ends M p Q' s := hQ _ _ h

/-- The rule of sequences: the second part starts from wherever the first may end well. -/
theorem ends_bind {p : Prog R ε α} {f : α → Prog R ε β} {Q : Except ε β → S → Prop} {s : S}
    (h : Ends M p (Then M f Q) s) : Ends M (p >>= f) Q s := by
  unfold Ends at h ⊢
  rw [run_bind]
  rcases hp : p.run M s with ⟨e | a, t⟩
  · rwa [hp] at h
  · rwa [hp] at h

theorem ends_attempt {p : Prog R ε α} {Q : Except ε' (Except ε α) → S → Prop} {s : S}
    (h : Ends M p (fun r t => Q (.ok r) t) s) :
    Ends M (p.attempt : Prog R ε' (Except ε α)) Q s := by
  unfold Ends
  rw [run_attempt]
  exact h

/-! ## Failing runs -/

section Plan

variable {refuse : (c : C) → E → R c}

theorem runPlan_nil (p : Prog R ε α) (s : S) :
    p.runPlan M refuse [] s = ((p.run M s).1, (p.run M s).2, []) := by
  induction p generalizing s with
  | done r => rfl
  | call c next ih => exact ih _ _

theorem runPlan_bind (p : Prog R ε α) (f : α → Prog R ε β) (plan : List (Option E)) (s : S) :
    (p >>= f).runPlan M refuse plan s =
      match p.runPlan M refuse plan s with
      | (.ok a, t, rest) => (f a).runPlan M refuse rest t
      | (.error e, t, rest) => (.error e, t, rest) := by
  induction p generalizing s plan with
  | done r => cases r <;> rfl
  | call c next ih =>
    rcases plan with _ | ⟨_ | e, plan⟩
    · exact ih _ _ _
    · exact ih _ _ _
    · exact ih _ _ _

/-- A sequence that ends well went through both of its parts, whichever calls failed. -/
theorem runPlan_bind_eq_ok {p : Prog R ε α} {f : α → Prog R ε β} {plan rest : List (Option E)}
    {s t : S} {b : β} (h : (p >>= f).runPlan M refuse plan s = (.ok b, t, rest)) :
    ∃ a u mid, p.runPlan M refuse plan s = (.ok a, u, mid) ∧
      (f a).runPlan M refuse mid u = (.ok b, t, rest) := by
  rw [runPlan_bind] at h
  rcases hp : p.runPlan M refuse plan s with ⟨_ | a, u, mid⟩
  · rw [hp] at h
    cases h
  · rw [hp] at h
    exact ⟨a, u, mid, rfl, h⟩

/-! ## Runs that end well -/

theorem Succeeds.of_run {p : Prog R ε α} {s t : S} {a : α} (h : p.run M s = (.ok a, t)) :
    Succeeds M refuse p s a t :=
  ⟨[], [], by rw [runPlan_nil, h]⟩

theorem Succeeds.of_fst {p : Prog R ε α} {s : S} {a : α} (h : (p.run M s).1 = .ok a) :
    Succeeds M refuse p s a (p.run M s).2 :=
  .of_run (Prod.ext h rfl)

theorem succeeds_done {r : Except ε α} {s t : S} {a : α}
    (h : Succeeds M refuse (.done r) s a t) : r = .ok a ∧ t = s := by
  obtain ⟨plan, rest, h⟩ := h
  rw [runPlan] at h
  cases h
  exact ⟨rfl, rfl⟩

theorem succeeds_bind {p : Prog R ε α} {f : α → Prog R ε β} {s t : S} {b : β}
    (h : Succeeds M refuse (p >>= f) s b t) :
    ∃ a u, Succeeds M refuse p s a u ∧ Succeeds M refuse (f a) u b t := by
  obtain ⟨plan, rest, h⟩ := h
  obtain ⟨a, u, mid, hp, hf⟩ := runPlan_bind_eq_ok h
  exact ⟨a, u, ⟨plan, mid, hp⟩, ⟨mid, rest, hf⟩⟩

/-- The next call has been answered, or it has failed. -/
theorem succeeds_call {c : C} {next : R c → Prog R ε α} {s t : S} {a : α}
    (h : Succeeds M refuse (.call c next) s a t) :
    Succeeds M refuse (next (M.exec c s).1) (M.exec c s).2 a t ∨
      ∃ e, Succeeds M refuse (next (refuse c e)) s a t := by
  obtain ⟨plan, rest, h⟩ := h
  rcases plan with _ | ⟨_ | e, plan⟩
  · exact Or.inl ⟨[], rest, h⟩
  · exact Or.inl ⟨plan, rest, h⟩
  · exact Or.inr ⟨e, plan, rest, h⟩

theorem Succeeds.refused {c : C} {next : R c → Prog R ε α} {s t : S} {a : α} {e : E}
    (h : Succeeds M refuse (next (refuse c e)) s a t) : Succeeds M refuse (.call c next) s a t := by
  obtain ⟨plan, rest, h⟩ := h
  exact ⟨some e :: plan, rest, h⟩

theorem Succeeds.answered {c : C} {next : R c → Prog R ε α} {s t : S} {a : α}
    (h : Succeeds M refuse (next (M.exec c s).1) (M.exec c s).2 a t) :
    Succeeds M refuse (.call c next) s a t := by
  obtain ⟨plan, rest, h⟩ := h
  exact ⟨none :: plan, rest, h⟩

/-! ## Runs that return -/

theorem returns_ok {a : α} {Q : α → S → Prop} {s : S} (h : Q a s) :
    Returns M refuse (.done (.ok a) : Prog R ε α) Q s := by
  intro b t hrun
  obtain ⟨hr, rfl⟩ := succeeds_done hrun
  cases hr
  exact h

theorem returns_error {e : ε} {Q : α → S → Prop} {s : S} :
    Returns M refuse (.done (.error e) : Prog R ε α) Q s := by
  intro b t hrun
  cases (succeeds_done hrun).1

theorem returns_call {c : C} {next : R c → Prog R ε α} {Q : α → S → Prop} {s : S}
    (hr : ∀ e, Returns M refuse (next (refuse c e)) Q s)
    (h : Returns M refuse (next (M.exec c s).1) Q (M.exec c s).2) :
    Returns M refuse (.call c next) Q s := by
  intro a t hrun
  rcases succeeds_call hrun with hrun | ⟨e, hrun⟩
  · exact h a t hrun
  · exact hr e a t hrun

theorem Returns.mono {p : Prog R ε α} {Q Q' : α → S → Prop} {s : S} (h : Returns M refuse p Q s)
    (hQ : ∀ a t, Q a t → Q' a t) : Returns M refuse p Q' s := fun a t hrun => hQ a t (h a t hrun)

theorem Returns.and {p : Prog R ε α} {Q Q' : α → S → Prop} {s : S} (h : Returns M refuse p Q s)
    (h' : Returns M refuse p Q' s) : Returns M refuse p (fun a t => Q a t ∧ Q' a t) s :=
  fun a t hrun => ⟨h a t hrun, h' a t hrun⟩

/-- The rule of sequences: the second part starts from wherever the first may return. -/
theorem returns_bind {p : Prog R ε α} {f : α → Prog R ε β} {Q : β → S → Prop} {s : S}
    (h : Returns M refuse p (fun a t => Returns M refuse (f a) Q t) s) :
    Returns M refuse (p >>= f) Q s := by
  intro b t hrun
  obtain ⟨a, u, hp, hf⟩ := succeeds_bind hrun
  exact h a u hp b t hf

/-! ## Runs that end in any way -/

theorem concludes_done {r : Except ε α} {Q : Except ε α → S → Prop} {s : S} (h : Q r s) :
    Concludes M refuse (.done r : Prog R ε α) Q s := by
  intro plan r' t rest hrun
  rw [runPlan] at hrun
  cases hrun
  exact h

theorem concludes_call {c : C} {next : R c → Prog R ε α} {Q : Except ε α → S → Prop} {s : S}
    (hr : ∀ e, Concludes M refuse (next (refuse c e)) Q s)
    (h : Concludes M refuse (next (M.exec c s).1) Q (M.exec c s).2) :
    Concludes M refuse (.call c next) Q s := by
  intro plan r t rest hrun
  rcases plan with _ | ⟨_ | e, plan⟩
  · exact h [] r t rest hrun
  · exact h plan r t rest hrun
  · exact hr e plan r t rest hrun

theorem Concludes.mono {p : Prog R ε α} {Q Q' : Except ε α → S → Prop} {s : S} (h : Concludes M refuse p Q s)
    (hQ : ∀ r t, Q r t → Q' r t) : Concludes M refuse p Q' s :=
  fun plan r t rest hrun => hQ r t (h plan r t rest hrun)

/-- The rule of sequences: the second part starts from wherever the first may end well. -/
theorem concludes_bind {p : Prog R ε α} {f : α → Prog R ε β} {Q : Except ε β → S → Prop} {s : S}
    (h : Concludes M refuse p (fun r t => match r with
      | .ok a => Concludes M refuse (f a) Q t
      | .error e => Q (.error e) t) s) :
    Concludes M refuse (p >>= f) Q s := by
  intro plan r t rest hrun
  rw [runPlan_bind] at hrun
  rcases hp : p.runPlan M refuse plan s with ⟨e | a, u, mid⟩
  · rw [hp] at hrun
    cases hrun
    exact h _ _ _ _ hp
  · rw [hp] at hrun
    exact h _ _ _ _ hp _ _ _ _ hrun

/-! ## Points of a run -/

section Visits

variable {I : S → Prop}

theorem visits_done {r : Except ε α} {s s' : S}
    (h : Visits M refuse (Prog.done (R := R) r) s s') : s' = s := by
  cases h
  rfl

theorem Visits.of_succeeds {p : Prog R ε α} {s t : S} {a : α} (h : Succeeds M refuse p s a t) :
    Visits M refuse p s t := by
  induction p generalizing s with
  | done r =>
    rw [(succeeds_done h).2]
    exact .here _ _
  | call c next ih =>
    rcases succeeds_call h with h | ⟨e, h⟩
    · exact .answered (ih _ h)
    · exact .refused e (ih _ h)

/-- A run of a sequence is in its first part, or in the second after the first ended well. -/
theorem visits_bind {p : Prog R ε α} {f : α → Prog R ε β} {s s' : S}
    (h : Visits M refuse (p >>= f) s s') :
    Visits M refuse p s s' ∨ ∃ a t, Succeeds M refuse p s a t ∧ Visits M refuse (f a) t s' := by
  induction p generalizing s with
  | done r =>
    cases r with
    | error e => exact Or.inl (visits_done h ▸ .here _ _)
    | ok a => exact Or.inr ⟨a, s, .of_run rfl, h⟩
  | call c next ih =>
    cases h with
    | here => exact Or.inl (.here _ _)
    | torn h => exact Or.inl (.torn h)
    | refused e h =>
      rcases ih _ h with h | ⟨a, t, hrun, h⟩
      · exact Or.inl (.refused e h)
      · exact Or.inr ⟨a, t, hrun.refused, h⟩
    | answered h =>
      rcases ih _ h with h | ⟨a, t, hrun, h⟩
      · exact Or.inl (.answered h)
      · exact Or.inr ⟨a, t, hrun.answered, h⟩

/-- A run whose error is handed over is at a point of the run, and if there is none it has ended well. -/
theorem succeeds_attempt {p : Prog R ε α} {r : Except ε α} {s t : S}
    (h : Succeeds M refuse (p.attempt : Prog R ε' (Except ε α)) s r t) :
    Visits M refuse p s t ∧ ∀ a, r = .ok a → Succeeds M refuse p s a t := by
  induction p generalizing s with
  | done r' =>
    obtain ⟨heq, rfl⟩ := succeeds_done h
    cases heq
    refine ⟨.here _ _, fun a ha => ?_⟩
    rw [ha]
    exact .of_run rfl
  | call c next ih =>
    rcases succeeds_call h with h | ⟨e, h⟩
    · obtain ⟨hvisits, hok⟩ := ih _ h
      exact ⟨.answered hvisits, fun a ha => (hok a ha).answered⟩
    · obtain ⟨hvisits, hok⟩ := ih _ h
      exact ⟨.refused e hvisits, fun a ha => (hok a ha).refused⟩

theorem visits_attempt {p : Prog R ε α} {s t : S}
    (h : Visits M refuse (p.attempt : Prog R ε' (Except ε α)) s t) : Visits M refuse p s t := by
  induction p generalizing s with
  | done r =>
    rw [visits_done h]
    exact .here _ _
  | call c next ih =>
    cases h with
    | here => exact .here _ _
    | torn h => exact .torn h
    | refused e h => exact .refused e (ih _ h)
    | answered h => exact .answered (ih _ h)

theorem Throughout.returns {p : Prog R ε α} {s : S} (h : Throughout M refuse I p s) :
    Returns M refuse p (fun _ t => I t) s := fun _ t hrun => h t (.of_succeeds hrun)

theorem Throughout.mono {p : Prog R ε α} {I' : S → Prop} {s : S} (h : Throughout M refuse I p s)
    (hI : ∀ t, I t → I' t) : Throughout M refuse I' p s := fun s' hv => hI s' (h s' hv)

theorem throughout_done {r : Except ε α} {s : S} (h : I s) :
    Throughout M refuse I (Prog.done (R := R) r) s := fun _ hv => visits_done hv ▸ h

theorem throughout_call {c : C} {next : R c → Prog R ε α} {s : S} (hI : I s)
    (ht : ∀ s', M.torn c s s' → I s') (hr : ∀ e, Throughout M refuse I (next (refuse c e)) s)
    (h : Throughout M refuse I (next (M.exec c s).1) (M.exec c s).2) :
    Throughout M refuse I (.call c next) s := by
  intro s' hv
  cases hv with
  | here => exact hI
  | torn hv => exact ht s' hv
  | refused e hv => exact hr e s' hv
  | answered hv => exact h s' hv

theorem throughout_bind {p : Prog R ε α} {f : α → Prog R ε β} {s : S}
    (hp : Throughout M refuse I p s)
    (hf : Returns M refuse p (fun a t => Throughout M refuse I (f a) t) s) :
    Throughout M refuse I (p >>= f) s := by
  intro s' hv
  rcases visits_bind hv with hv | ⟨a, t, hrun, hv⟩
  · exact hp s' hv
  · exact hf a t hrun s' hv

end Visits

/-! ## The errors a program may end with -/

theorem ErrorsIn.bind {P : ε → Prop} {p : Prog R ε α} {f : α → Prog R ε β}
    (hp : ErrorsIn M refuse P p) (hf : ∀ a, ErrorsIn M refuse P (f a)) :
    ErrorsIn M refuse P (p >>= f) := by
  intro s plan e t rest h
  rw [runPlan_bind] at h
  rcases hrun : p.runPlan M refuse plan s with ⟨_ | a, u, mid⟩
  · rw [hrun] at h
    cases h
    exact hp _ _ _ _ _ hrun
  · rw [hrun] at h
    exact hf a _ _ _ _ _ h

theorem strict_done (r : Except ε α) : (Prog.done (R := R) r).Strict refuse := trivial

theorem Strict.bind {p : Prog R ε α} {f : α → Prog R ε β} (hp : p.Strict refuse)
    (hf : ∀ a, (f a).Strict refuse) : (p >>= f).Strict refuse := by
  induction p with
  | done r =>
    cases r with
    | error e => exact trivial
    | ok a => exact hf a
  | call c next ih =>
    refine ⟨fun e => ?_, fun r => ih r (hp.2 r)⟩
    obtain ⟨stop, hstop⟩ := hp.1 e
    refine ⟨stop, ?_⟩
    show (next (refuse c e)).bind f = _
    rw [hstop]
    rfl

theorem strict_ite {c : Prop} [Decidable c] {p q : Prog R ε α} (hp : p.Strict refuse)
    (hq : q.Strict refuse) : (if c then p else q).Strict refuse := by
  split
  · exact hp
  · exact hq

/-- A run of such a program that ends well is one in which no call is refused. -/
theorem Strict.run_of_succeeds {p : Prog R ε α} (hp : p.Strict refuse) {s t : S} {a : α}
    (h : Succeeds M refuse p s a t) : p.run M s = (.ok a, t) := by
  induction p generalizing s with
  | done r =>
    obtain ⟨rfl, rfl⟩ := succeeds_done h
    rfl
  | call c next ih =>
    rcases succeeds_call h with h | ⟨e, h⟩
    · exact ih _ (hp.2 _) h
    · obtain ⟨stop, hstop⟩ := hp.1 e
      rw [hstop] at h
      cases (succeeds_done h).1

theorem Strict.returns {p : Prog R ε α} (hp : p.Strict refuse) {a : α} {s t : S} {Q : α → S → Prop}
    (hrun : p.run M s = (.ok a, t)) (h : Q a t) : Returns M refuse p Q s := by
  intro b u hrun'
  have heq := hp.run_of_succeeds hrun'
  rw [hrun] at heq
  cases heq
  exact h

/-- A refusal leaves such a program where a kill before the call would. -/
theorem Strict.cut_of_visits {p : Prog R ε α} (hp : p.Strict refuse) {s s' : S}
    (h : Visits M refuse p s s') : Cut M p s s' := by
  induction h with
  | here p s => exact .here _ _
  | torn h => exact .torn h
  | refused e h ih =>
    obtain ⟨stop, hstop⟩ := hp.1 e
    rw [hstop] at h
    rw [visits_done h]
    exact .here _ _
  | answered h ih => exact .later (ih (hp.2 _))

theorem Strict.throughout {p : Prog R ε α} {I : S → Prop} {s : S} (hp : p.Strict refuse)
    (h : ∀ s', Cut M p s s' → I s') : Throughout M refuse I p s :=
  fun s' hv => h s' (hp.cut_of_visits hv)

/-- A property of the state that the calls of a program keep is kept by all its runs. -/
theorem Only.runPlan {P : C → Prop} {I : S → Prop} (hI : ∀ c s, P c → I s → I (M.exec c s).2)
    {p : Prog R ε α} (hp : p.Only P) (plan : List (Option E)) (s : S) (h : I s) :
    I (p.runPlan M refuse plan s).2.1 := by
  induction p generalizing s plan with
  | done r => exact h
  | call c next ih =>
    rcases plan with _ | ⟨_ | e, plan⟩
    · exact ih _ (hp.2 _) _ _ (hI c s hp.1 h)
    · exact ih _ (hp.2 _) _ _ (hI c s hp.1 h)
    · exact ih _ (hp.2 _) _ _ h

end Plan

/-! ## The calls a program may make -/

theorem only_done {P : C → Prop} (r : Except ε α) : (Prog.done (R := R) r).Only P := trivial

theorem only_any (p : Prog R ε α) : p.Only fun _ => True := by
  induction p with
  | done r => exact trivial
  | call c next ih => exact ⟨trivial, ih⟩

theorem Only.imp {P Q : C → Prop} {p : Prog R ε α} (h : ∀ c, P c → Q c) (hp : p.Only P) : p.Only Q := by
  induction p with
  | done r => exact trivial
  | call c next ih => exact ⟨h c hp.1, fun r => ih r (hp.2 r)⟩

theorem Only.bind {P : C → Prop} {p : Prog R ε α} {f : α → Prog R ε β} (hp : p.Only P)
    (hf : ∀ a, (f a).Only P) : (p >>= f).Only P := by
  induction p with
  | done r =>
    cases r with
    | error e => exact trivial
    | ok a => exact hf a
  | call c next ih => exact ⟨hp.1, fun r => ih r (hp.2 r)⟩

theorem only_ite {P : C → Prop} {c : Prop} [Decidable c] {p q : Prog R ε α} (hp : p.Only P)
    (hq : q.Only P) : (if c then p else q).Only P := by
  split
  · exact hp
  · exact hq

/-- A property that the calls of a program keep, also when they are cut short, is kept by a kill. -/
theorem Only.cut {P : C → Prop} {I : S → Prop} (hI : ∀ c s, P c → I s → I (M.exec c s).2)
    (ht : ∀ c s s', P c → I s → M.torn c s s' → I s') {p : Prog R ε α} (hp : p.Only P) {s s' : S}
    (hc : Cut M p s s') (h : I s) : I s' := by
  induction hc with
  | here p s => exact h
  | torn htorn => exact ht _ _ _ hp.1 h htorn
  | later hc ih => exact ih (hp.2 _) (hI _ _ hp.1 h)

/-! ## Kills -/

theorem Cut.of_run (p : Prog R ε α) (s : S) : Cut M p s (p.run M s).2 := by
  induction p generalizing s with
  | done r => exact .here _ _
  | call c next ih => exact .later (ih _ _)

theorem Cut.of_after (n : Nat) (p : Prog R ε α) (s : S) : Cut M p s (p.after M n s) := by
  induction p generalizing n s with
  | done r => cases n <;> exact .here _ _
  | call c next ih =>
    cases n with
    | zero => exact .here _ _
    | succ n => exact .later (ih _ _ _)

theorem cut_done {r : Except ε α} {s s' : S} (h : Cut M (Prog.done (R := R) r) s s') : s' = s := by
  cases h
  rfl

theorem cut_call {c : C} {next : R c → Prog R ε α} {s s' : S} (h : Cut M (.call c next) s s') :
    s' = s ∨ M.torn c s s' ∨ Cut M (next (M.exec c s).1) (M.exec c s).2 s' := by
  cases h with
  | here => exact Or.inl rfl
  | torn h => exact Or.inr (Or.inl h)
  | later h => exact Or.inr (Or.inr h)

/-- A kill of a sequence falls in its first part, or in the second after the first ended well. -/
theorem cut_bind {p : Prog R ε α} {f : α → Prog R ε β} {s s' : S} (h : Cut M (p >>= f) s s') :
    Cut M p s s' ∨ ∃ a t, p.run M s = (.ok a, t) ∧ Cut M (f a) t s' := by
  induction p generalizing s with
  | done r =>
    cases r with
    | error e => exact Or.inl (cut_done h ▸ .here _ _)
    | ok a => exact Or.inr ⟨a, s, rfl, h⟩
  | call c next ih =>
    rcases cut_call h with rfl | h | h
    · exact Or.inl (.here _ _)
    · exact Or.inl (.torn h)
    · rcases ih _ h with h | h
      · exact Or.inl (.later h)
      · exact Or.inr h

/-! ## Safety -/

variable {I : S → Prop}

theorem Safe.cut {p : Prog R ε α} {Q : Except ε α → S → Prop} {s s' : S} (h : Safe M I p Q s)
    (hc : Cut M p s s') : I s' := h.1 s' hc

theorem Safe.mono {p : Prog R ε α} {Q Q' : Except ε α → S → Prop} {I' : S → Prop} {s : S}
    (h : Safe M I p Q s) (hI : ∀ t, I t → I' t) (hQ : ∀ r t, I t → Q r t → Q' r t) :
    Safe M I' p Q' s :=
  ⟨fun s' hc => hI s' (h.1 s' hc), hQ _ _ (h.1 _ (Cut.of_run p s)) h.2⟩

theorem safe_done {r : Except ε α} {Q : Except ε α → S → Prop} {s : S} (hI : I s) (hQ : Q r s) :
    Safe M I (.done r) Q s :=
  ⟨fun _ hc => cut_done hc ▸ hI, hQ⟩

theorem safe_call {c : C} {next : R c → Prog R ε α} {Q : Except ε α → S → Prop} {s : S} (hI : I s)
    (ht : ∀ s', M.torn c s s' → I s') (h : Safe M I (next (M.exec c s).1) Q (M.exec c s).2) :
    Safe M I (.call c next) Q s := by
  refine ⟨fun s' hc => ?_, h.2⟩
  rcases cut_call hc with rfl | hc | hc
  · exact hI
  · exact ht s' hc
  · exact h.1 s' hc

/-- The rule of sequences: the second part starts from wherever the first may end well. -/
theorem safe_bind {p : Prog R ε α} {f : α → Prog R ε β} {Q : Except ε β → S → Prop} {s : S}
    (Q' : α → S → Prop)
    (hp : Safe M I p (fun r t => (∀ e, r = .error e → Q (.error e) t) ∧ ∀ a, r = .ok a → Q' a t) s)
    (hf : ∀ a t, I t → Q' a t → Safe M I (f a) Q t) : Safe M I (p >>= f) Q s := by
  have hI := hp.1 _ (Cut.of_run p s)
  refine ⟨fun s' hc => ?_, ?_⟩
  · rcases cut_bind hc with hc | ⟨a, t, ht, hc⟩
    · exact hp.1 s' hc
    · have h2 := hp.2
      rw [ht] at h2 hI
      exact (hf a t hI (h2.2 a rfl)).1 s' hc
  · rw [run_bind]
    have h2 := hp.2
    rcases ht : p.run M s with ⟨e | a, t⟩
    · rw [ht] at h2
      exact h2.1 e rfl
    · rw [ht] at h2 hI
      exact (hf a t hI (h2.2 a rfl)).2

end Effects.Prog
