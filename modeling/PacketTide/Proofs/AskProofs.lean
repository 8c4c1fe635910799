import PacketTide.Digest
import PacketTide.Effects.Proofs.ProgProofs
import PacketTide.FileSystem.Proofs.ReplyProofs

/-!
# Rules for single calls

How a call that succeeds, or is refused, takes a program along.
-/

namespace PacketTide

open Effects FileSystem Prog

variable {α β : Type} {c : FsCall} {fs t : FS} {I : FS → Prop}

@[simp] theorem exec_machine (c : FsCall) (fs : FS) : machine.exec c fs = FS.exec c fs := rfl

@[simp] theorem torn_machine (c : FsCall) (fs t : FS) : machine.torn c fs t ↔ FS.Torn c fs t :=
  Iff.rfl

theorem ask_bind (c : FsCall) (f : c.Value → FsProg β) :
    (ask c >>= f) = .call c fun
      | .ok v => f v
      | .error e => .done (.error (.io e)) := by
  unfold ask
  rw [call_bind]
  congr 1
  funext r
  cases r <;> rfl

theorem run_ask_ok {v : c.Value} {f : c.Value → FsProg β} (h : FS.exec c fs = (.ok v, t)) :
    (ask c >>= f).run machine fs = (f v).run machine t := by
  rw [ask_bind, run_call, exec_machine, h]

theorem run_ask_error {e : Errno} {f : c.Value → FsProg β} (h : FS.exec c fs = (.error e, t)) :
    (ask c >>= f).run machine fs = (.error (.io e), t) := by
  rw [ask_bind, run_call, exec_machine, h]
  rfl

/-- Where a kill may fall in a call that succeeds and the program that follows it. -/
theorem cut_ask {v : c.Value} {f : c.Value → FsProg β} {s' : FS}
    (h : FS.exec c fs = (.ok v, t)) (hc : Cut machine (ask c >>= f) fs s') :
    s' = fs ∨ FS.Torn c fs s' ∨ Cut machine (f v) t s' := by
  rw [ask_bind] at hc
  rcases cut_call hc with hc | hc | hc
  · exact Or.inl hc
  · exact Or.inr (Or.inl hc)
  · rw [exec_machine, h] at hc
    exact Or.inr (Or.inr hc)

/-- A call that succeeds and is then followed by a program. -/
theorem safe_ask {v : c.Value} {f : c.Value → FsProg β} {Q : Except AnyError β → FS → Prop}
    (h : FS.exec c fs = (.ok v, t)) (hI : I fs) (ht : ∀ s', FS.Torn c fs s' → I s')
    (hf : Safe machine I (f v) Q t) : Safe machine I (ask c >>= f) Q fs := by
  rw [ask_bind]
  refine safe_call hI ht ?_
  rw [exec_machine, h]
  exact hf

theorem safe_ask_error {e : Errno} {f : c.Value → FsProg β} {Q : Except AnyError β → FS → Prop}
    (h : FS.exec c fs = (.error e, t)) (hI : I fs) (ht : ∀ s', FS.Torn c fs s' → I s')
    (hI' : I t) (hQ : Q (.error (.io e)) t) : Safe machine I (ask c >>= f) Q fs := by
  rw [ask_bind]
  refine safe_call hI ht ?_
  rw [exec_machine, h]
  exact safe_done hI' hQ

/-- A call whose reply is handed on. -/
theorem safe_request {r : FsReply c} {f : FsReply c → FsProg β}
    {Q : Except AnyError β → FS → Prop} (h : FS.exec c fs = (r, t)) (hI : I fs)
    (ht : ∀ s', FS.Torn c fs s' → I s') (hf : Safe machine I (f r) Q t) :
    Safe machine I (request c >>= f) Q fs := by
  rw [request_bind]
  refine safe_call hI ht ?_
  rw [exec_machine, h]
  exact hf

/-- A call at the end of a program. -/
theorem safe_ask_last {v : c.Value} {Q : Except AnyError c.Value → FS → Prop}
    (h : FS.exec c fs = (.ok v, t)) (hI : I fs) (ht : ∀ s', FS.Torn c fs s' → I s')
    (hI' : I t) (hQ : Q (.ok v) t) : Safe machine I (ask c) Q fs := by
  refine safe_call hI ht ?_
  rw [exec_machine, h]
  exact safe_done hI' hQ

/-! ## Runs in which calls may fail -/

theorem succeeds_ask {v : c.Value} (h : Succeeds machine refuse (ask c) fs v t) :
    FS.exec c fs = (.ok v, t) := by
  rcases succeeds_call h with h | ⟨e, h⟩
  · rw [exec_machine] at h
    rcases hx : FS.exec c fs with ⟨_ | w, u⟩
    · rw [hx] at h
      cases (succeeds_done h).1
    · rw [hx] at h
      obtain ⟨hw, rfl⟩ := succeeds_done h
      cases hw
      rfl
  · cases (succeeds_done h).1

theorem returns_ask {Q : c.Value → FS → Prop} (h : ∀ v t, FS.exec c fs = (.ok v, t) → Q v t) :
    Returns machine refuse (ask c) Q fs := fun v t hrun => h v t (succeeds_ask hrun)

theorem returns_ask_recording {calls : List FsCall} {Q : c.Value → FS × List FsCall → Prop}
    (h : ∀ v t, FS.exec c fs = (.ok v, t) → Q v (t, calls ++ [c])) :
    Returns machine.recording refuse (ask c) Q (fs, calls) := by
  refine returns_call (fun e => returns_error) ?_
  have hexec : machine.recording.exec c (fs, calls) = ((FS.exec c fs).1, (FS.exec c fs).2, calls ++ [c]) := rfl
  rw [hexec]
  rcases hx : FS.exec c fs with ⟨e | v, t⟩
  · exact returns_error
  · exact returns_ok (h v t hx)

theorem strict_ask : (ask c).Strict refuse :=
  ⟨fun e => ⟨.io e, rfl⟩, fun r => by cases r <;> exact trivial⟩

theorem strict_failWith {text : String} : (failWith text : FsProg α).Strict refuse := trivial

/-- The points of a call and of the program that follows it. -/
theorem throughout_ask {f : c.Value → FsProg β} (hI : I fs) (htorn : ∀ t, FS.Torn c fs t → I t)
    (herror : ∀ e t, FS.exec c fs = (.error e, t) → I t)
    (hok : ∀ v t, FS.exec c fs = (.ok v, t) → Throughout machine refuse I (f v) t) :
    Throughout machine refuse I (ask c >>= f) fs := by
  rw [ask_bind]
  refine throughout_call hI htorn (fun e => throughout_done hI) ?_
  rw [exec_machine]
  rcases hexec : FS.exec c fs with ⟨e | v, t⟩
  · exact throughout_done (herror e t hexec)
  · exact hok v t hexec

/-- The points of a call whose reply is handed on. -/
theorem throughout_request {f : FsReply c → FsProg β} (hI : I fs) (htorn : ∀ t, FS.Torn c fs t → I t)
    (hrefused : ∀ e, Throughout machine refuse I (f (.error e)) fs)
    (h : ∀ r t, FS.exec c fs = (r, t) → Throughout machine refuse I (f r) t) :
    Throughout machine refuse I (request c >>= f) fs :=
  throughout_call hI htorn hrefused (h _ _ rfl)

/-- A call that only reads, and what follows it. -/
theorem succeeds_read {f : c.Value → FsProg β} {b : β} (hc : (FS.exec c fs).2 = fs)
    (h : Succeeds machine refuse (ask c >>= f) fs b t) :
    ∃ v, FS.exec c fs = (.ok v, fs) ∧ Succeeds machine refuse (f v) fs b t := by
  obtain ⟨v, u, hv, hf⟩ := succeeds_bind h
  have hexec := succeeds_ask hv
  obtain rfl : u = fs := by rw [← hc, hexec]
  exact ⟨v, hexec, hf⟩

/-- The reply of a call that is handed on: the true one, or an error that left things alone. -/
theorem succeeds_request {r : FsReply c}
    (h : Succeeds (ε := AnyError) machine refuse (request c) fs r t) :
    FS.exec c fs = (r, t) ∨ t = fs ∧ ∃ e, r = .error e := by
  rcases succeeds_call h with h | ⟨e, h⟩
  · obtain ⟨hr, rfl⟩ := succeeds_done h
    cases hr
    exact Or.inl rfl
  · obtain ⟨hr, rfl⟩ := succeeds_done h
    cases hr
    exact Or.inr ⟨rfl, e, rfl⟩

theorem runPlan_ask_refused (c : FsCall) (e : Errno) (plan : List (Option Errno)) (fs : FS) :
    (ask c).runPlan machine refuse (some e :: plan) fs = (.error (.io e), fs, plan) := rfl

/-- A call that does not fail is answered truthfully. -/
theorem runPlan_ask {plan : List (Option Errno)} (h : ∀ e, plan.head? ≠ some (some e)) (c : FsCall)
    (fs : FS) : (ask c).runPlan machine refuse plan fs =
      ((FS.exec c fs).1.mapError AnyError.io, (FS.exec c fs).2, plan.tail) := by
  rcases plan with _ | ⟨_ | e, plan⟩
  · rcases hx : FS.exec c fs with ⟨_ | w, u⟩ <;> simp [ask, runPlan, hx, Except.mapError]
  · rcases hx : FS.exec c fs with ⟨_ | w, u⟩ <;> simp [ask, runPlan, hx, Except.mapError]
  · exact absurd rfl (h e)

theorem not_succeeds_failWith {text : String} {a : α} :
    ¬ Succeeds machine refuse (failWith text) fs a t := by
  intro h
  cases (succeeds_done h).1

/-! ## Programs of certain calls -/

theorem only_ask {P : FsCall → Prop} (h : P c) : (ask c).Only P :=
  ⟨h, fun r => by cases r <;> exact trivial⟩

theorem only_request {P : FsCall → Prop} (h : P c) : (request c : FsProg (FsReply c)).Only P :=
  ⟨h, fun _ => trivial⟩

theorem only_failWith {P : FsCall → Prop} {text : String} : (failWith text : FsProg α).Only P :=
  trivial

variable {home : Loc} {v : View} {p : FsProg α}

/-- A program that keeps the view leaves it alone also when calls fail. -/
theorem looks_runPlan (hp : p.Only FsCall.KeepsView) (hl : fs.Looks home v)
    (plan : List (Option Errno)) : (p.runPlan machine refuse plan fs).2.1.Looks home v :=
  hp.runPlan (I := fun u => u.Looks home v) (fun _ _ hc hu => FS.looks_exec hc hu) plan fs hl

theorem looks_of_succeeds {a : α} (hp : p.Only FsCall.KeepsView) (hl : fs.Looks home v)
    (h : Succeeds machine refuse p fs a t) : t.Looks home v := by
  obtain ⟨plan, rest, hrun⟩ := h
  have ht := looks_runPlan hp hl plan
  rwa [hrun] at ht

/-- Wherever a program that keeps the view is killed, the view is the same. -/
theorem looks_of_cut (hp : p.Only FsCall.KeepsView) (hl : fs.Looks home v)
    (h : Cut machine p fs t) : t.Looks home v :=
  hp.cut (I := fun u => u.Looks home v) (fun _ _ hc hu => FS.looks_exec hc hu)
    (fun _ _ _ hc _ ht => absurd ht (FS.not_torn_of_keepsView hc)) h hl

/-- The safety of a program that keeps the view. -/
theorem safe_of_keeps (hp : p.Only FsCall.KeepsView) (hl : fs.Looks home v) :
    Safe machine (fun t => t.Looks home v) p
      (fun r t => t.Looks home v ∧ r = (p.run machine fs).1) fs :=
  ⟨fun _ hc => looks_of_cut hp hl hc, looks_of_cut hp hl (Cut.of_run p fs), rfl⟩

end PacketTide
