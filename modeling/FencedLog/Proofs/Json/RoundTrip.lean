/-
# A written value is read back

Reading the text of a value gives the value, for every value there is: nested
to any depth, with any string, any integer and any keys, repeated ones included
(`ofText?_text`). The reader takes the tokens of a value, wherever it stands,
as that value complete (`run_tokens`).

Key theorems: `Json.run_tokens`, `Json.ofText?_text`.
-/
import FencedLog.Json.Reader
import FencedLog.Proofs.Json.Lexing

namespace FencedLog
namespace Json

open Reader (complete)

variable {frames : List Frame} {rest : List Token}

theorem run_cons {r q : Reader} {t : Token} (h : r.step t = some q) (ts : List Token) :
    r.run (t :: ts) = q.run ts := by
  rw [Reader.run, h]

/-- After a step that completes a value. -/
theorem run_complete {r : Reader} {t : Token} {v : Json} (h : r.step t = complete v frames)
    (ts : List Token) : r.run (t :: ts) = (complete v frames).bind (Reader.run · ts) := by
  rw [Reader.run, h]
  cases complete v frames <;> rfl

/-- No value begins with the end of an array, so the first item is a value like
any other. -/
theorem run_firstItem (v : Json) (rest : List Token) :
    Reader.run ⟨frames, .firstItem⟩ (tokens v ++ rest) =
      Reader.run ⟨frames, .value⟩ (tokens v ++ rest) := by
  cases v <;> rfl

/-- A key comes with its colon. -/
theorem run_key {goal : Goal} (hgoal : goal = .key ∨ goal = .firstKey)
    (done : List (Option String × Json)) (k : Option String) (rest : List Token) :
    Reader.run ⟨.fields done :: frames, goal⟩ (.atom (ofKey k) :: .mark ':' :: rest) =
      Reader.run ⟨.awaiting done k :: frames, .value⟩ rest := by
  have hstep : Reader.step ⟨.fields done :: frames, goal⟩ (.atom (ofKey k)) =
      some ⟨.awaiting done k :: frames, .colon⟩ := by
    rcases hgoal with rfl | rfl <;> cases k <;> rfl
  exact (run_cons hstep _).trans (run_cons rfl _)

mutual

/-- **The tokens of a value complete it.** -/
theorem run_tokens : ∀ (v : Json) (frames : List Frame) (rest : List Token),
    Reader.run ⟨frames, .value⟩ (tokens v ++ rest) = (complete v frames).bind (Reader.run · rest)
  | .null, _, rest => run_complete rfl rest
  | .bool _, _, rest => run_complete rfl rest
  | .int _, _, rest => run_complete rfl rest
  | .real, _, rest => run_complete rfl rest
  | .str _, _, rest => run_complete rfl rest
  | .torn, _, rest => run_complete rfl rest
  | .arr [], _, rest => (run_cons rfl _).trans (run_complete rfl rest)
  | .arr (v :: vs), frames, rest => by
    have hitems := run_itemTokens (v :: vs) (List.cons_ne_nil v vs) frames [] rest
    rw [tokens, List.cons_append, List.append_assoc, List.singleton_append]
    refine (run_cons (q := ⟨.items [] :: frames, .firstItem⟩) rfl _).trans (Eq.trans ?_ hitems)
    cases vs with
    | nil => exact run_firstItem v _
    | cons w vs =>
      rw [itemTokens, List.append_assoc]
      exact run_firstItem v _
  | .obj [], _, rest => (run_cons rfl _).trans (run_complete rfl rest)
  | .obj (f :: fs), frames, rest => by
    have hfields := run_fieldTokens (f :: fs) (List.cons_ne_nil f fs) frames [] rest (Or.inr rfl)
    rw [tokens, List.cons_append, List.append_assoc, List.singleton_append]
    exact (run_cons rfl _).trans hfields

theorem run_itemTokens : ∀ (items : List Json), items ≠ [] → ∀ (frames : List Frame)
    (done : List Json) (rest : List Token),
    Reader.run ⟨.items done :: frames, .value⟩ (itemTokens items ++ .mark ']' :: rest) =
      (complete (arr (done.reverse ++ items)) frames).bind (Reader.run · rest)
  | [], h, _, _, _ => absurd rfl h
  | [v], _, frames, done, rest => by
    rw [itemTokens, run_tokens v]
    refine (run_complete (v := arr (v :: done).reverse) rfl rest).trans ?_
    rw [List.reverse_cons]
  | v :: w :: vs, _, frames, done, rest => by
    rw [itemTokens, List.append_assoc, List.cons_append, run_tokens v]
    show Reader.run ⟨.items (v :: done) :: frames, .next⟩ (.mark ',' :: _) = _
    rw [run_cons (q := ⟨.items (v :: done) :: frames, .value⟩) rfl,
      run_itemTokens (w :: vs) (List.cons_ne_nil w vs), List.reverse_cons, List.append_assoc,
      List.singleton_append]

theorem run_fieldTokens : ∀ (fields : List (Option String × Json)), fields ≠ [] →
    ∀ (frames : List Frame) (done : List (Option String × Json)) (rest : List Token) {goal : Goal},
    goal = .key ∨ goal = .firstKey →
    Reader.run ⟨.fields done :: frames, goal⟩ (fieldTokens fields ++ .mark '\x7d' :: rest) =
      (complete (obj (done.reverse ++ fields)) frames).bind (Reader.run · rest)
  | [], h, _, _, _, _, _ => absurd rfl h
  | [(k, v)], _, frames, done, rest, _, hgoal => by
    rw [fieldTokens, List.cons_append, List.cons_append, run_key hgoal, run_tokens v]
    refine (run_complete (v := obj ((k, v) :: done).reverse) rfl rest).trans ?_
    rw [List.reverse_cons]
  | (k, v) :: f :: fs, _, frames, done, rest, _, hgoal => by
    rw [fieldTokens, List.cons_append, List.cons_append, List.append_assoc, List.cons_append,
      run_key hgoal, run_tokens v]
    show Reader.run ⟨.fields ((k, v) :: done) :: frames, .next⟩ (.mark ',' :: _) = _
    rw [run_cons (q := ⟨.fields ((k, v) :: done) :: frames, .key⟩) rfl,
      run_fieldTokens (f :: fs) (List.cons_ne_nil f fs) frames _ rest (Or.inl rfl),
      List.reverse_cons, List.append_assoc, List.singleton_append]

end

theorem ofTokens?_tokens (v : Json) : ofTokens? (tokens v) = some v := by
  have hrun := run_tokens v [] []
  rw [List.append_nil] at hrun
  rw [ofTokens?, hrun]
  rfl

/-- **A written value is read back.** -/
theorem ofText?_text (v : Json) : ofText? v.text = some v := by
  rw [ofText?, tokens_text]
  exact ofTokens?_tokens v

end Json
end FencedLog
