import Mathlib

/-!
# Lib.Produce

Repeated calls of a fallible operation, each of which hands out some items and moves a state on.

* `Produces next more s out s'` — calls of `next` lead from `s` to `s'` and hand out `out`; `more`
  holds after each call but the last.
-/

namespace Lib

universe u v

variable {ε : Type u} {σ ω : Type v}

inductive Produces (next : σ → Except ε (List ω × σ)) (more : σ → Prop) : σ → List ω → σ → Prop
  | last {s s' : σ} {out : List ω} (h : next s = .ok (out, s')) : Produces next more s out s'
  | step {s t s' : σ} {out rest : List ω} (h : next s = .ok (out, t)) (hm : more t)
      (hr : Produces next more t rest s') : Produces next more s (out ++ rest) s'

namespace Produces

variable {next : σ → Except ε (List ω × σ)} {more more' : σ → Prop}

theorem mono (hmore : ∀ s, more s → more' s) {s s' : σ} {out : List ω}
    (h : Produces next more s out s') : Produces next more' s out s' := by
  induction h with
  | last h => exact .last h
  | step h hm _ ih => exact .step h (hmore _ hm) ih

end Produces

end Lib
