import DbToy.Lib.Protocol

/-!
# What a client asks for

`Prog.asked` lists the requests that are answered in one run, in their order.  It is computed along
the client's code by `asked_bind_of_ok`: the parts that succeed one after the other ask for theirs.

* `asked_related`: implementations that answer alike are asked alike.
* `run_asked`: what single requests do to the state adds up over the list.
-/

namespace Prog

variable {Op : Type} {Ans : Op → Type} {ε α β σ σ₁ σ₂ : Type}

/-- The requests that are answered in a run. -/
def asked (H : Handler Op Ans ε σ) : Prog Op Ans ε α → σ → List Op
  | call o next, s =>
      match H o s with
      | .ok (x, s') => o :: (next x).asked H s'
      | .error _ => []
  | _, _ => []

variable {H : Handler Op Ans ε σ} {s s' : σ}

lemma asked_request {o : Op} {x : Ans o} (h : H o s = .ok (x, s')) :
    (request o : Prog Op Ans ε (Ans o)).asked H s = [o] := by
  simp only [request, asked, h]

lemma asked_liftM (x : Except ε α) : (liftM x : Prog Op Ans ε α).asked H s = [] := by
  cases x <;> rfl

/-- **A part that succeeds asks first**, and then the rest of the client. -/
theorem asked_bind_of_ok {p : Prog Op Ans ε α} {a : α} (h : p.run H s = .ok (a, s'))
    (f : α → Prog Op Ans ε β) : (p >>= f).asked H s = p.asked H s ++ (f a).asked H s' := by
  induction p generalizing s with
  | ret b => cases h; rfl
  | fail e => cases h
  | call o next ih =>
      show (call o fun x => (next x).bind f).asked H s = _
      simp only [run] at h
      simp only [asked]
      cases ho : H o s with
      | error e => rw [ho] at h; cases h
      | ok r =>
          rw [ho] at h
          exact congrArg (o :: ·) (ih r.1 h)

lemma asked_liftM_bind {x : Except ε α} {a : α} (h : x = .ok a) (f : α → Prog Op Ans ε β) :
    ((liftM x : Prog Op Ans ε α) >>= f).asked H s = (f a).asked H s := by
  subst h; rfl

/-- **Implementations that answer every request alike are asked alike.** -/
theorem asked_related {R : σ₁ → σ₂ → Prop} {H₁ : Handler Op Ans ε σ₁} {H₂ : Handler Op Ans ε σ₂}
    (hH : ∀ o s t, R s t → Agree R (H₁ o s) (H₂ o t)) (p : Prog Op Ans ε α) :
    ∀ {s t}, R s t → p.asked H₁ s = p.asked H₂ t := by
  induction p with
  | ret a => intro s t _; rfl
  | fail e => intro s t _; rfl
  | call o next ih =>
      intro s t h
      have ho := hH o s t h
      simp only [asked]
      cases h₂ : H₂ o t with
      | error e =>
          rw [h₂] at ho
          rw [ho.eq_error]
      | ok r =>
          rw [h₂] at ho
          obtain ⟨s', hs', hR⟩ := ho.exists_ok
          rw [hs']
          exact congrArg (o :: ·) (ih r.1 hR)

/-- **What the requests do one by one adds up** to what the run does. -/
theorem run_asked {A : Op → Prop} {R : σ → List Op → σ → Prop} (hnil : ∀ s, R s [] s)
    (hcons : ∀ o os x s s' s'', A o → H o s = .ok (x, s') → R s' os s'' → R s (o :: os) s'')
    {p : Prog Op Ans ε α} (hp : Only A p) {a : α} (h : p.run H s = .ok (a, s')) :
    R s (p.asked H s) s' := by
  induction p generalizing s with
  | ret b => cases h; exact hnil _
  | fail e => cases h
  | call o next ih =>
      simp only [run] at h
      simp only [asked]
      cases ho : H o s with
      | error e => rw [ho] at h; cases h
      | ok r =>
          rw [ho] at h
          exact hcons o _ r.1 s r.2 s' hp.1 ho (ih r.1 (hp.2 r.1) h)

/-- A client asks for nothing else than it is allowed to. -/
lemma Only.of_mem_asked {A : Op → Prop} {p : Prog Op Ans ε α} (hp : Only A p) :
    ∀ o ∈ p.asked H s, A o := by
  induction p generalizing s with
  | ret a => exact fun _ ho => absurd ho List.not_mem_nil
  | fail e => exact fun _ ho => absurd ho List.not_mem_nil
  | call o next ih =>
      intro o' ho'
      simp only [asked] at ho'
      cases ho : H o s with
      | error e => rw [ho] at ho'; exact absurd ho' List.not_mem_nil
      | ok r =>
          rw [ho] at ho'
          rcases List.mem_cons.mp ho' with rfl | ho'
          · exact hp.1
          · exact ih r.1 (hp.2 r.1) o' ho'

/-- A client that asks for nothing. -/
lemma Only.asked_eq_nil {p : Prog Op Ans ε α} (hp : Only (fun _ => False) p) :
    p.asked H s = [] :=
  List.eq_nil_iff_forall_not_mem.mpr hp.of_mem_asked

end Prog
