import PacketTide.Effects.Proofs.ProgProofs

/-!
# Programs that rely on the replies they get

The rules of `Obeys`, and what follows for the runs of such a program: where all replies have the property it
relies on, the states that its calls keep are never left.
-/

namespace Effects.Prog

variable {C : Type} {R : C → Type} {S E ε ε' α β : Type} {M : Machine R S} {refuse : (c : C) → E → R c}
  {P : C → Prop} {G : (c : C) → R c → Prop} {Q Q' : α → Prop} {I : S → Prop} {p q : Prog R ε α}

/-! ## Rules -/

theorem obeys_ok {a : α} (h : Q a) : (.done (.ok a) : Prog R ε α).Obeys P G Q := by
  intro b hb
  cases hb
  exact h

theorem obeys_error {e : ε} : (.done (.error e) : Prog R ε α).Obeys P G Q := by
  intro b hb
  cases hb

theorem Obeys.mono (hp : p.Obeys P G Q) (hQ : ∀ a, Q a → Q' a) : p.Obeys P G Q' := by
  induction p with
  | done r => exact fun a ha => hQ a (hp a ha)
  | call c next ih => exact ⟨hp.1, fun r hr => ih r (hp.2 r hr)⟩

/-- A result that nothing is said of. -/
theorem Obeys.any (hp : p.Obeys P G Q) : p.Obeys P G fun _ => True := hp.mono fun _ _ => trivial

/-- The rule of sequences: the second part may rely on the result of the first. -/
theorem Obeys.bind {f : α → Prog R ε β} {Q' : β → Prop} (hp : p.Obeys P G Q)
    (hf : ∀ a, Q a → (f a).Obeys P G Q') : (p >>= f).Obeys P G Q' := by
  induction p with
  | done r =>
    cases r with
    | error e => exact obeys_error
    | ok a => exact hf a (hp a rfl)
  | call c next ih => exact ⟨hp.1, fun r hr => ih r (hp.2 r hr)⟩

theorem obeys_ite {c : Prop} [Decidable c] (hp : c → p.Obeys P G Q) (hq : ¬c → q.Obeys P G Q) :
    (if c then p else q).Obeys P G Q := by
  split
  next h => exact hp h
  next h => exact hq h

theorem obeys_request {c : C} (h : P c) : (request c : Prog R ε (R c)).Obeys P G (G c) :=
  ⟨h, fun _ hr => obeys_ok hr⟩

theorem Obeys.attempt (hp : p.Obeys P G Q) :
    (p.attempt : Prog R ε' (Except ε α)).Obeys P G fun r => ∀ a, r = .ok a → Q a := by
  induction p with
  | done r => exact obeys_ok hp
  | call c next ih => exact ⟨hp.1, fun r hr => ih r (hp.2 r hr)⟩

/-- A program whose calls all have a property needs no promise. -/
theorem Only.obeys (hp : p.Only P) : p.Obeys P G fun _ => True := by
  induction p with
  | done r => exact fun _ _ => trivial
  | call c next ih => exact ⟨hp.1, fun r _ => ih r (hp.2 r)⟩

/-! ## Runs -/

/-- The program never leaves the states that its calls keep. -/
theorem Obeys.throughout (hp : p.Obeys P G Q) (hu : Upholds M refuse P G I) {s : S} (h : I s) :
    Throughout M refuse I p s := by
  induction p generalizing s with
  | done r => exact throughout_done h
  | call c next ih =>
    refine throughout_call h (fun t => hu.torn c s t hp.1 h) (fun e => ?_) ?_
    · exact ih _ (hp.2 _ (hu.refused c e hp.1)) h
    · obtain ⟨hr, ht⟩ := hu.answered c s hp.1 h
      exact ih _ (hp.2 _ hr) ht

theorem Obeys.returns (hp : p.Obeys P G Q) (hu : Upholds M refuse P G I) {s : S} (h : I s) :
    Returns M refuse p (fun a t => Q a ∧ I t) s := by
  induction p generalizing s with
  | done r =>
    intro a t hrun
    obtain ⟨rfl, rfl⟩ := succeeds_done hrun
    exact ⟨hp a rfl, h⟩
  | call c next ih =>
    refine returns_call (fun e => ?_) ?_
    · exact ih _ (hp.2 _ (hu.refused c e hp.1)) h
    · obtain ⟨hr, ht⟩ := hu.answered c s hp.1 h
      exact ih _ (hp.2 _ hr) ht

/-! ## Properties that are sustained -/

section Sustains

variable {s : S} {K : α → S → Prop} {L : β → S → Prop}

theorem sustains_ok {a : α} (hI : I s) (h : K a s) : Sustains M refuse I (.done (.ok a) : Prog R ε α) K s :=
  ⟨throughout_done hI, returns_ok h⟩

theorem sustains_error {e : ε} (hI : I s) : Sustains M refuse I (.done (.error e) : Prog R ε α) K s :=
  ⟨throughout_done hI, returns_error⟩

theorem Sustains.mono {I' : S → Prop} {K' : α → S → Prop} (h : Sustains M refuse I p K s) (hI : ∀ t, I t → I' t)
    (hK : ∀ a t, K a t → K' a t) : Sustains M refuse I' p K' s :=
  ⟨h.throughout.mono hI, h.returns.mono hK⟩

/-- More is known of the results. -/
theorem Sustains.and {K' : α → S → Prop} (h : Sustains M refuse I p K s) (h' : Returns M refuse p K' s) :
    Sustains M refuse I p (fun a t => K a t ∧ K' a t) s :=
  ⟨h.throughout, h.returns.and h'⟩

/-- At the end of a run it holds, too. -/
theorem Sustains.kept (h : Sustains M refuse I p K s) : Sustains M refuse I p (fun a t => K a t ∧ I t) s :=
  h.and h.throughout.returns

/-- The rule of sequences: the second part starts from wherever the first may return. -/
theorem Sustains.bind {f : α → Prog R ε β} (h : Sustains M refuse I p K s)
    (hf : ∀ a t, K a t → Sustains M refuse I (f a) L t) : Sustains M refuse I (p >>= f) L s :=
  ⟨throughout_bind h.throughout (h.returns.mono fun a t hK => (hf a t hK).throughout),
    returns_bind (h.returns.mono fun a t hK => (hf a t hK).returns)⟩

theorem sustains_ite {c : Prop} [Decidable c] (hp : c → Sustains M refuse I p K s)
    (hq : ¬c → Sustains M refuse I q K s) : Sustains M refuse I (if c then p else q) K s := by
  split
  next h => exact hp h
  next h => exact hq h

/-- An error that is handed over is found at some point of the run. -/
theorem Sustains.attempt (h : Sustains M refuse I p K s) :
    Sustains M refuse I (p.attempt : Prog R ε' (Except ε α)) (fun r t => I t ∧ ∀ a, r = .ok a → K a t) s := by
  refine ⟨fun t hv => h.throughout t (visits_attempt hv), fun r t hrun => ?_⟩
  obtain ⟨hvisits, hok⟩ := succeeds_attempt hrun
  exact ⟨h.throughout t hvisits, fun a ha => h.returns a t (hok a ha)⟩

theorem Obeys.sustains (hp : p.Obeys P G Q) (hu : Upholds M refuse P G I) (h : I s) :
    Sustains M refuse I p (fun a t => Q a ∧ I t) s :=
  ⟨hp.throughout hu h, hp.returns hu h⟩

end Sustains

end Effects.Prog
