/-
# What a worker says of its records

A completion says that a record was appended, or that it was not, or neither: a
transport error leaves that open, and so does a send that is abandoned. A
worker says of the records of a batch that they were appended when the broker
has answered so. It says that a record was not appended only where it cannot
have been: it never asked for it, or the broker has refused the request for a
reason that no request that was carried out comes back with.

Key definitions: `DeliveryError.isDefinite`, `definites`, `acknowledged`,
`Line.isVague`, `Worker.unlanded`.
Key theorems: `Delivery.acks_answered`, `Delivery.unlanded_answered`,
`Delivery.unlanded_round`, `Worker.lands`.
-/
import FencedLog.Proofs.Delivery.Completions
import FencedLog.Proofs.Scene.Delivered

namespace FencedLog

/-! ### Completions -/

/-- The error says that the record was not appended. -/
def DeliveryError.isDefinite : DeliveryError → Bool
  | transport _ | abandoned => false
  | fenced .. | recordTooLarge .. | unknownPartition .. | rejected _ => true

/-- The sends whose records were not appended, by what they were completed
with. -/
def definites (done : List (Ticket × Completion)) : List Ticket :=
  done.filterMap fun
    | (t, .error e) => if e.isDefinite then some t else none
    | (_, .ok _) => none

/-- The sends whose records were appended, and where. -/
def acknowledged (done : List (Ticket × Completion)) : List (Ticket × Placement) :=
  done.filterMap fun
    | (t, .ok m) => some (t, m)
    | (_, .error _) => none

theorem definites_append (xs ys : List (Ticket × Completion)) :
    definites (xs ++ ys) = definites xs ++ definites ys :=
  List.filterMap_append

theorem acknowledged_append (xs ys : List (Ticket × Completion)) :
    acknowledged (xs ++ ys) = acknowledged xs ++ acknowledged ys :=
  List.filterMap_append

theorem mem_definites {t : Ticket} {e : DeliveryError} {done : List (Ticket × Completion)}
    (h : (t, .error e) ∈ done) (he : e.isDefinite = true) : t ∈ definites done :=
  List.mem_filterMap.mpr ⟨_, h, if_pos he⟩

theorem mem_acknowledged {t : Ticket} {m : Placement} {done : List (Ticket × Completion)}
    (h : (t, .ok m) ∈ done) : (t, m) ∈ acknowledged done :=
  List.mem_filterMap.mpr ⟨_, h, rfl⟩

theorem definites_sublist : ∀ done : List (Ticket × Completion),
    (definites done).Sublist (done.map Prod.fst)
  | [] => .refl _
  | (t, .ok _) :: done => (definites_sublist done).cons t
  | (t, .error e) :: done => by
    have ih := definites_sublist done
    by_cases he : e.isDefinite = true
    · rw [show definites ((t, .error e) :: done) = t :: definites done by simp [definites, he]]
      exact ih.cons_cons t
    · rw [show definites ((t, .error e) :: done) = definites done by simp [definites, he]]
      exact ih.cons t

theorem definites_placements (xs : List (Ticket × Placement)) :
    definites (xs.map fun x => (x.1, .ok x.2)) = [] := by
  simp [definites]

theorem definites_transport (e : BrokerError) (ts : List Ticket) :
    definites (ts.map (·, .error (.transport e))) = [] := by
  simp [definites, DeliveryError.isDefinite]

/-- What is acknowledged is what the worker has acknowledged. -/
theorem acknowledged_completions : ∀ deeds : List Deed, acknowledged (completions deeds) = acks deeds
  | [] => rfl
  | .request _ :: deeds => acknowledged_completions deeds
  | .dropped _ :: deeds => acknowledged_completions deeds
  | .completed _ (.error _) :: deeds => acknowledged_completions deeds
  | .completed _ (.ok _) :: deeds => congrArg (_ :: ·) (acknowledged_completions deeds)

/-- A refusal that may be tried again leaves open what became of the request. -/
theorem ofBroker_of_isRetriable {e : BrokerError} (h : e.isRetriable = true) (txid : String)
    (id : Identity) : DeliveryError.ofBroker txid id e = .transport e := by
  cases e <;> first | rfl | cases h

/-! ### What cannot have been appended -/

/-- The answer says that the request was carried out, or leaves it open. -/
def Line.isVague : Line → Bool
  | .replied (.ok (.appended _)) => true
  | .replied (.error e) => e.isRetriable
  | _ => false

/-- The tickets that a worker holds whose records cannot have been appended. -/
def Phase.unlanded (phase : Phase) (line : Line) : List Ticket :=
  match phase with
  | .appending batch rest _ =>
    (if line.isVague then [] else batch.tickets) ++ rest.flatMap Batch.tickets
  | .enrolling .. | .idle | .stopped => Delivery.held phase

/-- The tickets of a worker whose records cannot have been appended. -/
def Worker.unlanded (w : Worker) (line : Line) : List Ticket :=
  w.phase.unlanded line ++ Delivery.queued w.queue

theorem Phase.unlanded_sublist (phase : Phase) (line : Line) :
    (phase.unlanded line).Sublist (Delivery.held phase) := by
  cases phase with
  | appending batch rest barrier =>
    simp only [unlanded, Delivery.held]
    split
    · exact List.sublist_append_right _ _
    · exact .refl _
  | _ => exact .refl _

/-- On a line that is not vague nothing was appended. -/
theorem Phase.unlanded_of_not_isVague (phase : Phase) {line : Line} (h : line.isVague = false) :
    phase.unlanded line = Delivery.held phase := by
  cases phase <;> simp [unlanded, h, Delivery.held]

theorem landed_of_unfit {w : Worker} {answer : Answer}
    (h : ∀ base batch rest barrier, answer = .ok (.appended base) →
      w.phase ≠ .appending batch rest barrier) : w.landed (.replied answer) = [] := by
  rcases answer with e | reply
  · rfl
  · cases reply with
    | appended base => exact landed_of_phase (fun _ _ _ => h base _ _ _ rfl) _
    | _ => rfl

/-- **A request that reaches the broker appends the records of the batch, and
then they count as appended whatever is heard of it**, if an answer is lost to
an error that may be tried again. -/
theorem Worker.lands (w : Worker) (q : Request) (answer : Answer) {lost : Option BrokerError}
    (hl : ∀ e, lost = some e → e.isRetriable = true) :
    ((w.landed (.replied answer)).map Receipt.ticket ++ w.unlanded (Scene.reply answer lost)).Subperm
      (w.unlanded (.sent q)) := by
  have hsent : w.phase.unlanded (.sent q) = Delivery.held w.phase :=
    w.phase.unlanded_of_not_isVague rfl
  by_cases ha : ∃ base batch rest barrier,
      answer = .ok (.appended base) ∧ w.phase = .appending batch rest barrier
  · obtain ⟨base, batch, rest, barrier, rfl, hp⟩ := ha
    have hvague : (Scene.reply (.ok (.appended base)) lost).isVague = true := by
      cases lost with
      | none => rfl
      | some e => exact hl e rfl
    have hland : (w.landed (.replied (.ok (.appended base)))).map Receipt.ticket = batch.tickets := by
      have htickets : ∀ (loads : List Load) (base : Nat),
          (receipts batch.partition base loads).map Receipt.ticket = loads.map (·.2) := by
        intro loads
        induction loads with
        | nil => exact fun _ => rfl
        | cons x loads ih => exact fun base => congrArg (x.2 :: ·) (ih (base + 1))
      rw [landed, hp]
      exact htickets batch.items base
    rw [hland, unlanded, unlanded, hsent, hp]
    simp only [Phase.unlanded, hvague, if_true, List.nil_append, Delivery.held, List.append_assoc]
    exact .refl _
  · -- nothing was appended
    have hland : w.landed (.replied answer) = [] :=
      landed_of_unfit fun base batch rest barrier h hp => ha ⟨base, batch, rest, barrier, h, hp⟩
    rw [hland, unlanded, unlanded, hsent, List.map_nil, List.nil_append]
    exact ((w.phase.unlanded_sublist _).append_right _).subperm

namespace Delivery

theorem acks_appendNext (barrier : Option Barrier) : ∀ (batches : List (Batch Load)) (d : Delivery),
    acks (d.appendNext barrier batches).2 = []
  | [], _ => by
    rw [appendNext]
    rfl
  | batch :: rest, d => by
    rw [appendNext]
    split
    · simp only [acks_append, acks_failAll, List.nil_append]
      exact acks_appendNext barrier rest _
    · rfl

/-- **A worker acknowledges the records that have landed.** -/
theorem acks_answered (d : Delivery) (answer : Answer) :
    acks (d.answered answer).2 = (d.worker.landed (.replied answer)).map Receipt.ack := by
  unfold answered
  split
  · rename_i hp
    rw [acks_appendNext, landed_of_phase (by simp [hp])]
    rfl
  · rename_i hp
    rw [landed_of_phase (by simp [hp])]
    exact acks_failAll _ _
  · rename_i batch rest barrier base hp
    simp only [acks_append, acks_placeAll, acks_appendNext, List.append_nil]
    rw [Worker.landed, hp, acks_receipts]
  · simp only [acks_append, acks_failAll, acks_appendNext, List.append_nil]
    rfl
  · rename_i _ _ hunfit _
    rw [landed_of_unfit fun base _ _ _ h hp => hunfit _ _ _ base hp h]
    rfl

/-- What goes on with these tickets says of some that they were not appended,
and holds others. -/
theorem Settles.definites {d : Delivery} {barrier : Option Barrier} {tickets : List Ticket}
    {r : Delivery × List Deed} (h : d.Settles barrier tickets r) :
    (FencedLog.definites (completions r.2) ++ (held r.1.worker.phase ++
      queued r.1.worker.queue)).Subperm (tickets ++ queued d.worker.queue) := by
  rw [h.queue, ← List.append_assoc]
  refine List.Subperm.append ?_ (.refl _)
  exact ((definites_sublist _).append_right _).subperm.trans h.tickets.subperm

/-- What a worker takes it says something of, or holds. -/
theorem Advances.definites {d : Delivery} {gone : List Message} {r : Delivery × List Deed}
    (h : d.Advances gone r) : (FencedLog.definites (completions r.2) ++
      (held r.1.worker.phase ++ queued r.1.worker.queue)).Subperm
        (held d.worker.phase ++ queued d.worker.queue) :=
  ((definites_sublist _).append_right _).subperm.trans h.conserves.subperm

/-- **A worker says that a record was not appended only if it cannot have
been.** -/
theorem unlanded_answered (d : Delivery) (answer : Answer) :
    (definites (completions (d.answered answer).2) ++ (held (d.answered answer).1.worker.phase ++
      queued (d.answered answer).1.worker.queue)).Subperm (d.worker.unlanded (.replied answer)) := by
  by_cases hv : (Line.replied answer).isVague = true ∧
      ∃ batch rest barrier, d.worker.phase = .appending batch rest barrier
  · obtain ⟨hv, batch, rest, barrier, hp⟩ := hv
    have hrest : d.worker.unlanded (.replied answer) =
        rest.flatMap Batch.tickets ++ queued d.worker.queue := by
      rw [Worker.unlanded, hp, Phase.unlanded, if_pos hv, List.nil_append]
    rw [hrest]
    -- nothing is said of the batch but that it was appended, or may have been
    rcases answer with e | reply
    · have hr : e.isRetriable = true := hv
      obtain ⟨hw, -⟩ := refused_keeps d e
      have herr : (d.refused e).2 = .transport e := ofBroker_of_isRetriable hr _ _
      unfold answered
      rw [hp]
      simp only
      generalize d.refused e = r at hw herr
      obtain ⟨d', err⟩ := r
      simp only at hw herr
      subst herr
      have h := (settles_appendNext barrier rest
        { d' with shared := d'.shared.countFailed batch.items.length }).definites
      rw [completions_append, definites_append, completions_failAll, definites_transport,
        List.nil_append, ← hw]
      exact h
    · cases reply with
      | appended base =>
        unfold answered
        rw [hp]
        simp only
        have h := (settles_appendNext barrier rest
          { d with shared := d.shared.countAcknowledged batch.items.length }).definites
        rw [completions_append, definites_append, completions_placeAll, definites_placements,
          List.nil_append]
        exact h
      | _ => cases hv
  · obtain ⟨gone, h⟩ := advances_answered d answer
    have hall : d.worker.phase.unlanded (.replied answer) = held d.worker.phase := by
      cases hp : d.worker.phase with
      | appending batch rest barrier =>
        apply Phase.unlanded_of_not_isVague
        by_contra hne
        exact hv ⟨by simpa using hne, batch, rest, barrier, hp⟩
      | _ => rfl
    rw [Worker.unlanded, hall]
    exact h.definites

/-- A round says that a record was not appended only if it was in the queue. -/
theorem unlanded_round (d : Delivery) (visible : Nat) (line : Line) : d.round visible = (d, []) ∨
    (acks (d.round visible).2 = [] ∧
      (definites (completions (d.round visible).2) ++ (held (d.round visible).1.worker.phase ++
        queued (d.round visible).1.worker.queue)).Subperm (d.worker.unlanded line)) := by
  rcases goes_round d visible with ⟨-, hstay⟩ | ⟨hp, pending, barrier, rest, q, -, -, -, hacks⟩
  · exact Or.inl hstay
  · obtain ⟨gone, h⟩ := advances_round d visible
    refine Or.inr ⟨hacks, ?_⟩
    rw [Worker.unlanded, show d.worker.phase.unlanded line = held d.worker.phase by rw [hp]; rfl]
    exact h.definites

end Delivery
end FencedLog
