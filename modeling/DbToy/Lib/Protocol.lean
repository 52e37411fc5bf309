import DbToy.Lib.Interface
import Mathlib.Data.Nat.Notation

/-!
# Protocols of client programs

What a client asks for can be read off the client alone, whatever the answers are.  A `Protocol`
has phases; in each it allows some requests, and a request and its answer lead to the next phase.
`Prog.Follows` says that a client keeps to it, and is proved rule by rule along the client's code.

What the protocol is good for does not look at the client any more:

* `Follows.stopped`: a relation of phases and states that is kept by each request which the
  protocol allows holds wherever the client is stopped, in the middle of its work included.
* `Follows.run_simulates`: an implementation has to follow another one only as far as the protocol
  allows requests, and only while the other one answers.
-/

/-- Phases, the requests that they allow, and the phase after an answer. -/
structure Protocol (Op : Type) (Ans : Op → Type) (Q : Type) where
  Allows : Q → Op → Prop
  next : Q → (o : Op) → Ans o → Q

namespace Prog

variable {Op Q : Type} {Ans : Op → Type} {ε α β σ σ₁ σ₂ : Type}

/-- The state in which a client is stopped after so many requests, or as many as it gets answered
if these are fewer. -/
def stopped (H : Handler Op Ans ε σ) : ℕ → Prog Op Ans ε α → σ → σ
  | n + 1, call o next, s =>
      match H o s with
      | .ok (x, s') => stopped H n (next x) s'
      | .error _ => s
  | _, _, s => s

/-- **A client that was stopped could have been resumed.** -/
theorem stopped_resumes {H : Handler Op Ans ε σ} {p : Prog Op Ans ε α} {s s' : σ} {a : α}
    (h : p.run H s = .ok (a, s')) (n : ℕ) :
    ∃ rest : Prog Op Ans ε α, rest.run H (p.stopped H n s) = .ok (a, s') := by
  induction n generalizing p s with
  | zero => exact ⟨p, h⟩
  | succ n ih =>
      cases p with
      | ret b => exact ⟨ret b, h⟩
      | fail e => cases h
      | call o next =>
          simp only [run] at h
          rw [stopped]
          cases ho : H o s with
          | error e => rw [ho] at h; cases h
          | ok r =>
              rw [ho] at h
              exact ih h

/-- The client keeps to the protocol from the phase on, whatever it is answered; when it returns,
phase and result are as said. -/
def Follows (π : Protocol Op Ans Q) : Q → Prog Op Ans ε α → (Q → α → Prop) → Prop
  | q, ret a, Post => Post q a
  | _, fail _, _ => True
  | q, call o next, Post => π.Allows q o ∧ ∀ x, Follows π (π.next q o x) (next x) Post

namespace Follows

variable {π : Protocol Op Ans Q} {q : Q} {Post Post' : Q → α → Prop}

/-! ## Rules -/

lemma pure {a : α} (h : Post q a) : Follows π q (Pure.pure a : Prog Op Ans ε α) Post := h

lemma request {o : Op} {Post : Q → Ans o → Prop} (ho : π.Allows q o)
    (h : ∀ x, Post (π.next q o x) x) : Follows π q (request o : Prog Op Ans ε (Ans o)) Post :=
  ⟨ho, h⟩

lemma liftM {x : Except ε α} (h : ∀ a, x = .ok a → Post q a) :
    Follows π q (liftM x : Prog Op Ans ε α) Post := by
  cases x with
  | error e => trivial
  | ok a => exact h a rfl

lemma mono {p : Prog Op Ans ε α} (hp : Follows π q p Post) (h : ∀ q a, Post q a → Post' q a) :
    Follows π q p Post' := by
  induction p generalizing q with
  | ret a => exact h q a hp
  | fail e => trivial
  | call o next ih => exact ⟨hp.1, fun x => ih x (hp.2 x)⟩

lemma bind {p : Prog Op Ans ε α} {f : α → Prog Op Ans ε β} {Post : Q → β → Prop}
    (h : Follows π q p fun q a => Follows π q (f a) Post) : Follows π q (p >>= f) Post := by
  induction p generalizing q with
  | ret a => exact h
  | fail e => trivial
  | call o next ih => exact ⟨h.1, fun x => ih x (h.2 x)⟩

/-! ## Where a client is stopped -/

variable {H : Handler Op Ans ε σ} {J : Q → σ → Prop}

/-- **Whatever each allowed request keeps holds wherever the client is stopped.** -/
theorem stopped (hstep : ∀ {q o s x s'}, J q s → π.Allows q o → H o s = .ok (x, s') →
      J (π.next q o x) s') {p : Prog Op Ans ε α} (hp : Follows π q p Post) :
    ∀ (n : ℕ) {s : σ}, J q s → ∃ q', J q' (Prog.stopped H n p s) := by
  intro n
  induction n generalizing q p with
  | zero => intro s hs; exact ⟨q, hs⟩
  | succ n ih =>
      intro s hs
      cases p with
      | ret a => exact ⟨q, hs⟩
      | fail e => exact ⟨q, hs⟩
      | call o next =>
          rw [Prog.stopped]
          split
          · next x s' heq => exact ih (hp.2 x) (hstep hs hp.1 heq)
          · exact ⟨q, hs⟩

/-- And when it has returned. -/
theorem run (hstep : ∀ {q o s x s'}, J q s → π.Allows q o → H o s = .ok (x, s') →
      J (π.next q o x) s') {p : Prog Op Ans ε α} (hp : Follows π q p Post) {s s' : σ} {a : α}
    (hs : J q s) (h : p.run H s = .ok (a, s')) : ∃ q', J q' s' ∧ Post q' a := by
  induction p generalizing q s with
  | ret b =>
      cases h
      exact ⟨q, hs, hp⟩
  | fail e => cases h
  | call o next ih =>
      simp only [Prog.run] at h
      cases ho : H o s with
      | error e => rw [ho] at h; cases h
      | ok r =>
          rw [ho] at h
          exact ih r.1 (hp.2 r.1) (hstep hs hp.1 ho) h

/-! ## Simulation of allowed requests -/

/-- **An implementation answers a client as another one does**, if it does so for the requests that
the protocol allows. -/
theorem run_simulates {R : Q → σ₁ → σ₂ → Prop} {H₁ : Handler Op Ans ε σ₁}
    {H₂ : Handler Op Ans ε σ₂} (hstep : ∀ {q o s t x t'}, R q s t → π.Allows q o →
      H₂ o t = .ok (x, t') → ∃ s', H₁ o s = .ok (x, s') ∧ R (π.next q o x) s' t')
    {p : Prog Op Ans ε α} (hp : Follows π q p Post) {s : σ₁} {t t' : σ₂} {a : α} (hR : R q s t)
    (h : p.run H₂ t = .ok (a, t')) : ∃ q' s', p.run H₁ s = .ok (a, s') ∧ R q' s' t' := by
  induction p generalizing q s t with
  | ret b =>
      cases h
      exact ⟨q, s, rfl, hR⟩
  | fail e => cases h
  | call o next ih =>
      simp only [Prog.run] at h ⊢
      cases ho : H₂ o t with
      | error e => rw [ho] at h; cases h
      | ok r =>
          rw [ho] at h
          obtain ⟨s', hs', hR'⟩ := hstep hR hp.1 ho
          rw [hs']
          exact ih r.1 (hp.2 r.1) hR' h

end Follows

/-! ## One kind of requests -/

/-- The protocol with one phase. -/
def only (A : Op → Prop) : Protocol Op Ans Unit := ⟨fun _ => A, fun q _ _ => q⟩

/-- The client makes no other requests than these. -/
def Only (A : Op → Prop) (p : Prog Op Ans ε α) : Prop := p.Follows (only A) () fun _ _ => True

namespace Only

variable {A : Op → Prop}

lemma pure (a : α) : Only A (Pure.pure a : Prog Op Ans ε α) := trivial

lemma fail (e : ε) : Only A (Prog.fail e : Prog Op Ans ε α) := trivial

lemma request {o : Op} (ho : A o) : Only A (Prog.request o : Prog Op Ans ε (Ans o)) :=
  ⟨ho, fun _ => trivial⟩

lemma liftM (x : Except ε α) : Only A (liftM x : Prog Op Ans ε α) :=
  Follows.liftM fun _ _ => trivial

lemma bind {p : Prog Op Ans ε α} {f : α → Prog Op Ans ε β} (hp : Only A p)
    (hf : ∀ a, Only A (f a)) : Only A (p >>= f) :=
  Follows.bind (hp.mono fun _ a _ => hf a)

/-- Requests that a protocol allows in a phase, and that lead nowhere else, can be made there. -/
lemma follows {π : Protocol Op Ans Q} {q : Q} {p : Prog Op Ans ε α} (hp : Only A p)
    (hA : ∀ o, A o → π.Allows q o ∧ ∀ x, π.next q o x = q) {Post : Q → α → Prop}
    (h : ∀ a, Post q a) : Follows π q p Post := by
  induction p with
  | ret a => exact h a
  | fail e => trivial
  | call o next ih =>
      obtain ⟨hallows, hnext⟩ := hA o hp.1
      refine ⟨hallows, fun x => ?_⟩
      rw [hnext x]
      exact ih x (hp.2 x)

/-- An implementation that answers these requests as another one does answers the client so. -/
theorem run_simulates {R : σ₁ → σ₂ → Prop} {H₁ : Handler Op Ans ε σ₁} {H₂ : Handler Op Ans ε σ₂}
    {p : Prog Op Ans ε α} (hp : Only A p)
    (hstep : ∀ {o s t x t'}, R s t → A o → H₂ o t = .ok (x, t') →
      ∃ s', H₁ o s = .ok (x, s') ∧ R s' t')
    {s : σ₁} {t t' : σ₂} {a : α} (hR : R s t) (h : p.run H₂ t = .ok (a, t')) :
    ∃ s', p.run H₁ s = .ok (a, s') ∧ R s' t' := by
  obtain ⟨-, s', hs', hR'⟩ := @Follows.run_simulates _ _ _ _ _ _ _ (only A) () _ (fun _ => R) H₁ H₂
    (fun hR ho h => hstep hR ho h) p hp s t t' a hR h
  exact ⟨s', hs', hR'⟩

/-- Implementations that answer these requests alike, faults included, answer the client alike. -/
theorem run_related {R : σ₁ → σ₂ → Prop} {H₁ : Handler Op Ans ε σ₁} {H₂ : Handler Op Ans ε σ₂}
    (hH : ∀ o s t, A o → R s t → Agree R (H₁ o s) (H₂ o t)) {p : Prog Op Ans ε α}
    (hp : Only A p) {s : σ₁} {t : σ₂} (hR : R s t) : Agree R (p.run H₁ s) (p.run H₂ t) := by
  induction p generalizing s t with
  | ret a => exact ⟨rfl, hR⟩
  | fail e => rfl
  | call o next ih =>
      have hagree := hH o s t hp.1 hR
      simp only [run]
      cases h₂ : H₂ o t with
      | error e =>
          rw [h₂] at hagree
          rw [hagree.eq_error]
          rfl
      | ok r =>
          obtain ⟨x, t'⟩ := r
          rw [h₂] at hagree
          obtain ⟨s', hs, hR'⟩ := hagree.exists_ok
          rw [hs]
          exact ih x (hp.2 x) hR'

end Only

end Prog
