/-
# A world in which only the owner moves

When no request of a worker is on its way, no worker can move and no watch is
kept, nothing happens beside the owner (`World.Still`): the clock goes straight
to what the owner waits for. A request of the owner then has one of three fates
(`Fate`): it is refused before it reaches the broker, it is handled and the
answer lost, or it is answered.

Key definitions: `World.Still`, `Table.Numbered`, `Fate`.
Key theorems: `World.hears_flight`, `World.call_of_asked`,
`World.sleep_of_still`.
-/
import FencedLog.Network.Owner
import FencedLog.Proofs.Keys

namespace FencedLog

/-- A span that takes time takes a tick. -/
theorem Span.ticks_pos {s : Span} (h : 0 < s.nanos) : 0 < s.ticks := by
  unfold ticks perMilli
  omega

/-! ### Numbered tables -/

namespace Table

theorem put_put {κ ν : Type} [DecidableEq κ] (t : Table κ ν) (k : κ) (v v' : ν) :
    (t.put k v).put k v' = t.put k v' := by
  unfold put
  congr 1
  generalize t.rows = rows
  induction rows with
  | nil => simp [write]
  | cons row rows ih =>
    obtain ⟨j, u⟩ := row
    by_cases h : j = k
    · simp [write, h]
    · simp [write, h, ih]

variable {ν : Type} {t : Table Nat ν}

/-- The keys are the numbers from zero on. -/
def Numbered (t : Table Nat ν) : Prop := t.keys = List.range t.rows.length

theorem numbered_empty : (empty : Table Nat ν).Numbered := rfl

theorem Numbered.distinct (h : t.Numbered) : t.Distinct := by
  unfold Distinct
  rw [h]
  exact List.nodup_range

theorem Numbered.get?_eq_none_iff (h : t.Numbered) {k : Nat} :
    t.get? k = none ↔ t.rows.length ≤ k := by
  have hk : k ∉ t.keys ↔ t.rows.length ≤ k := by
    rw [h, List.mem_range]
    omega
  rw [← hk]
  exact find_eq_none_iff

theorem length_keys (t : Table Nat ν) : t.keys.length = t.rows.length := List.length_map _

/-- To write under an old number changes no number. -/
theorem Numbered.put_old (h : t.Numbered) {k : Nat} {u : ν} (hk : t.get? k = some u) (v : ν) :
    (t.put k v).Numbered ∧ (t.put k v).rows.length = t.rows.length := by
  have hmem : k ∈ t.keys := List.mem_map.mpr ⟨_, mem_of_find hk, rfl⟩
  have hkeys : (t.put k v).keys = t.keys := (write_keys k v t.rows).trans (if_pos hmem)
  have hlen : (t.put k v).rows.length = t.rows.length := by
    rw [← length_keys, hkeys, length_keys]
  exact ⟨by rw [Numbered, hkeys, hlen, h], hlen⟩

/-- To write under the next number makes it an old one. -/
theorem Numbered.put_next (h : t.Numbered) (v : ν) :
    (t.put t.rows.length v).Numbered ∧
      (t.put t.rows.length v).rows.length = t.rows.length + 1 := by
  have hmem : t.rows.length ∉ t.keys := by
    rw [h, List.mem_range]
    omega
  have hkeys : (t.put t.rows.length v).keys = t.keys ++ [t.rows.length] :=
    (write_keys _ v t.rows).trans (if_neg hmem)
  have hlen : (t.put t.rows.length v).rows.length = t.rows.length + 1 := by
    rw [← length_keys, hkeys, List.length_append, length_keys, List.length_singleton]
  exact ⟨by rw [Numbered, hkeys, hlen, List.range_succ, h], hlen⟩

/-- What was written under an old number stays. -/
theorem Numbered.get?_put_next (h : t.Numbered) {k : Nat} {u : ν} (hk : t.get? k = some u) (v : ν) :
    (t.put t.rows.length v).get? k = some u := by
  have hne : t.rows.length ≠ k := fun he => by
    rw [h.get?_eq_none_iff.mpr (Nat.le_of_eq he)] at hk
    cases hk
  exact (get?_put_of_ne t hne v).trans hk

end Table

/-! ### What becomes of a request -/

/-- What may become of a request to a broker, with the broker afterwards and
what is heard of it. -/
inductive Fate (b : Broker) (now : Span) (q : Request) : Broker → Answer → Prop
  /-- It does not reach the broker. -/
  | refused (e : BrokerError) (h : e.isRetriable = true) : Fate b now q b (.error e)
  /-- It is handled, and the positive answer is lost. -/
  | lost (e : BrokerError) (h : e.isRetriable = true) (r : Reply)
      (hr : (b.handle now q).2 = .ok r) : Fate b now q (b.handle now q).1 (.error e)
  | answered : Fate b now q (b.handle now q).1 (b.handle now q).2

/-- The errors that the course of a request may bring along are retriable. -/
def Course.Mild : Course → Prop
  | .decided answer => ∃ e, answer = .error e ∧ e.isRetriable = true
  | .travelling _ (.replaced e) => e.isRetriable = true
  | _ => True

/-- The errors that a plan has for requests of a kind are retriable. -/
def MildPlan (kind : RequestKind) (faults : List Fault) : Prop :=
  ∀ f ∈ faults, f.kind = kind → ∀ e, f.mishap = .before e ∨ f.mishap = .after e →
    e.isRetriable = true

theorem mildPlan_strike {kind : RequestKind} : ∀ {faults : List Fault}, MildPlan kind faults →
    MildPlan kind (strike kind faults).2 ∧ ∀ e, (strike kind faults).1 = some (.before e) ∨
      (strike kind faults).1 = some (.after e) → e.isRetriable = true
  | [], _ => ⟨fun _ h => absurd h List.not_mem_nil, by simp [strike]⟩
  | f :: fs, h => by
    have hf := h f List.mem_cons_self
    have hfs : MildPlan kind fs := fun g hg => h g (List.mem_cons_of_mem _ hg)
    obtain ⟨ihplan, ihstrike⟩ := mildPlan_strike hfs
    unfold strike
    split
    · rename_i hk
      split
      · refine ⟨fun g hg => ?_, by simp⟩
        rcases List.mem_cons.mp hg with rfl | hg
        · exact hf
        · exact hfs g hg
      · refine ⟨fun g hg => ?_, fun e he => hf hk.1 e (by simpa using he)⟩
        rcases List.mem_cons.mp hg with rfl | hg
        · exact hf
        · exact hfs g hg
    · refine ⟨fun g hg => ?_, ihstrike⟩
      rcases List.mem_cons.mp hg with rfl | hg
      · exact hf
      · exact ihplan g hg

/-- A request to end a transaction departs on an open link with such a plan. -/
theorem mild_depart {l : Link} (hopen : l.closed = false) {q : Request} (hq : ∀ topic, q ≠ .listing topic)
    (h : MildPlan q.kind l.faults) (now : Nat) :
    (l.depart now q).2.Mild ∧ MildPlan q.kind (l.depart now q).1.faults ∧
      (l.depart now q).1 = { l with faults := (l.depart now q).1.faults } := by
  obtain ⟨hplan, hstrike⟩ := mildPlan_strike h
  refine ⟨?_, hplan, rfl⟩
  have hpass : ∀ ending, l.passage now ending = .travelling (now + (l.latency.getD .zero).ticks) ending :=
    fun ending => by simp [Link.passage, hopen]
  unfold Link.depart
  simp only
  generalize (strike q.kind l.faults).1 = mishap at hstrike
  cases mishap with
  | none => simp [Link.mishapCourse, hpass, Course.Mild]
  | some m =>
    cases m with
    | before e => exact ⟨e, rfl, hstrike e (Or.inl rfl)⟩
    | after e => simpa [Link.mishapCourse, hpass, Course.Mild] using hstrike e (Or.inr rfl)
    | hang => exact trivial
    | hangAfter => simp [Link.mishapCourse, hpass, Course.Mild]
    | panic => exact trivial
    | count n =>
      cases q with
      | listing topic => exact absurd rfl (hq topic)
      | _ => simp [Link.mishapCourse, hpass, Course.Mild]

namespace World

variable {w : World}

/-! ### Nothing happens beside the owner -/

/-- Nobody moves but the owner: those who are ready are workers that cannot. -/
structure Quiet (w : World) : Prop where
  watch : w.watch = none
  ready : ∀ a ∈ w.ready, ∃ k p, a = .worker k ∧ w.parties.get? k = some p ∧
    canMove p.session = false
  numbered : w.parties.Numbered
  flights : ∀ k p, w.parties.get? k = some p → p.flight = none

/-- The worker of a party that is yet to come is not ready. -/
theorem Quiet.next_not_ready (h : w.Quiet) : Actor.worker w.parties.rows.length ∉ w.ready := by
  intro hm
  obtain ⟨k, p, hk, hp, -⟩ := h.ready _ hm
  obtain rfl := Actor.worker.inj hk
  rw [h.numbered.get?_eq_none_iff.mpr (Nat.le_refl _)] at hp
  cases hp

/-- The owner's own request and what the broker keeps are no matter. -/
theorem Quiet.waiting (h : w.Quiet) (b : Broker) (now : Nat) (flight : Option Flight) :
    Quiet { w with broker := b, now := now, flight := flight } :=
  ⟨h.watch, h.ready, h.numbered, h.flights⟩

theorem Quiet.actorMoments (h : w.Quiet) : w.actorMoments = [] := by
  unfold World.actorMoments
  rw [h.watch, List.append_nil, List.flatMap_eq_nil_iff]
  rintro ⟨k, p⟩ hmem
  have hp := h.flights k p ((Table.get?_eq_some_iff h.numbered.distinct).mpr hmem)
  simp only [hp]

/-- The clock goes to the next of the owner's moments. -/
theorem Quiet.advance (h : w.Quiet) {moment : Nat}
    (hm : (w.ownerMoments.filter (w.now < ·)).min? = some moment) :
    w.advance = some { w with now := moment } := by
  unfold World.advance nextMoment wokenAt
  simp only [h.actorMoments, List.map_nil, List.append_nil, hm, Option.map_some, List.filter_nil]
  simp [sortByKey]

/-- A worker that cannot move does not. -/
theorem serveWorker_of_resting {k : Nat} {p : Party} (hp : w.parties.get? k = some p)
    (hf : p.flight = none) (hmove : canMove p.session = false) : w.serveWorker k = w := by
  unfold serveWorker
  simp only [hp]
  cases 4 * p.load with
  | zero => rfl
  | succ n =>
    simp only [serveUpTo, hp, serveOne, hf, hmove]
    cases p.session.worker <;> simp

theorem foldl_serve {actors : List Actor} (h : ∀ a ∈ actors, w.serve a = w) :
    actors.foldl serve w = w := by
  induction actors with
  | nil => rfl
  | cons a actors ih =>
    rw [List.foldl_cons, h a List.mem_cons_self]
    exact ih fun a ha => h a (List.mem_cons_of_mem _ ha)

theorem Quiet.serve (h : w.Quiet) {a : Actor} (ha : a ∈ w.ready) : w.serve a = w := by
  obtain ⟨k, p, rfl, hp, hmove⟩ := h.ready a ha
  exact serveWorker_of_resting hp (h.flights k p hp) hmove

/-- Those who were ready are found to have nothing to do. -/
theorem Quiet.serveReady (h : w.Quiet) : w.serveReady = { w with ready := [] } := by
  unfold World.serveReady
  simp only [foldl_serve fun a ha => h.serve ha]
  congr 1
  simp

/-! ### Waiting -/

section
variable {α : Type} {look : World → World × Option α} {w₁ w₂ : World}

theorem await_found {a : α} (h : look w = (w₁, some a)) (n : Nat) :
    await look (n + 1) w = (w₁, some a) := by
  simp only [await, h]

theorem await_serve (h : look w = (w₁, none)) (hr : w₁.ready ≠ []) (n : Nat) :
    await look (n + 1) w = await look n w₁.serveReady := by
  simp only [await, h, List.isEmpty_eq_false_iff.mpr hr, Bool.false_eq_true, if_false]

theorem await_advance (h : look w = (w₁, none)) (hr : w₁.ready = []) (ha : w₁.advance = some w₂)
    (n : Nat) : await look (n + 1) w = await look n w₂ := by
  simp only [await, h, hr, ha, List.isEmpty_nil, if_true]

end

/-- Within `k` looks the owner hears the answer to its request, in the world
`w'`. -/
def Hears (number k : Nat) (w w' : World) (answer : Answer) : Prop :=
  ∀ bound fuel v r, attend number bound (w'.moveParty number (.answered answer)) = (v, some r) →
    await (attend number (bound + 1)) (fuel + k) w = (v, some r)

variable {number k : Nat} {w' : World} {answer : Answer} {f g : Flight} {b : Broker}

theorem Hears.later (h : Hears number k w w' answer) : Hears number (k + 1) w w' answer := by
  intro bound fuel v r hv
  rw [← Nat.add_assoc, Nat.add_right_comm]
  exact h bound (fuel + 1) v r hv

/-- The answer is there. -/
theorem hears_now (number : Nat) (ho : w.outcome = none) (hf : w.flight = some f)
    (hl : f.look w.now w.reading w.broker = (b, .answered answer)) :
    Hears number 1 w { w with broker := b, flight := none } answer := by
  intro bound fuel v r hv
  refine await_found ?_ fuel
  rw [attend, ho]
  simp only [hf, look, hl]
  exact hv

theorem attend_pending (number : Nat) (ho : w.outcome = none) (hf : w.flight = some f)
    (hl : f.look w.now w.reading w.broker = (b, .pending g)) (bound : Nat) :
    attend number (bound + 1) w = ({ w with broker := b, flight := some g }, none) := by
  rw [attend, ho]
  simp only [hf, look, hl]
  rw [ho]

/-- The owner does not die of its request, and hears nothing of it. -/
theorem attend_deadly (number : Nat) (ho : w.outcome = none) (hf : w.flight = some f)
    (hl : f.look w.now w.reading w.broker = (b, .deadly)) (bound : Nat) :
    attend number (bound + 1) w =
      ({ w with broker := b, flight := some { f with course := .lost } }, none) := by
  rw [attend, ho]
  simp only [hf, look, hl]
  rw [ho]

/-- The answer is not there yet, and the clock goes on. -/
theorem hears_next (hq : w.Quiet) (ho : w.outcome = none)
    (hl : ∀ bound, attend number (bound + 1) w = ({ w with broker := b, flight := some g }, none))
    (hstay : g.look w.now w.reading b = (b, .pending g)) {moment : Nat}
    (hm : ((g.moments ++ w.alarm.toList).filter (w.now < ·)).min? = some moment)
    (h : Hears number k { w with broker := b, flight := some g, ready := [], now := moment } w' answer) :
    Hears number (k + 2) w w' answer := by
  intro bound fuel v r hv
  have hq₁ := hq.waiting b w.now (some g)
  have hadvance := hq₁.advance hm
  by_cases hr : w.ready = []
  · simp only [← hr] at h
    exact (await_advance (hl bound) hr hadvance (fuel + k + 1)).trans (h.later bound fuel v r hv)
  · -- those who are ready come first, and the owner looks again
    have hq₂ : Quiet { w with broker := b, flight := some g, ready := [] } :=
      ⟨hq.watch, by simp, hq.numbered, hq.flights⟩
    have hagain := attend_pending number
      (w := { w with broker := b, flight := some g, ready := [] }) ho rfl hstay bound
    refine (await_serve (hl bound) hr (fuel + k + 1)).trans ?_
    rw [hq₁.serveReady]
    exact (await_advance hagain rfl (hq₂.advance hm) (fuel + k)).trans (h bound fuel v r hv)

/-- An answer that will not come is waited for until the deadline. -/
theorem hears_timeout (number : Nat) (hq : w.Quiet) (ho : w.outcome = none) (ha : w.alarm = none) {span : Span}
    {deadline : Nat} (hd : g.deadline = some (deadline, span)) (hlt : w.now < deadline)
    (hc : g.course = .lost)
    (hl : ∀ bound, attend number (bound + 1) w = ({ w with broker := b, flight := some g }, none)) :
    Hears number 3 w { w with broker := b, now := deadline, flight := none, ready := [] }
      (.error (.timedOut span)) := by
  have hwaits : ¬ deadline ≤ w.now := by omega
  refine hears_next hq ho hl ?_ ?_ (hears_now number (b := b)
    (w := { w with broker := b, flight := some g, ready := [], now := deadline }) ho rfl ?_)
  · simp [Flight.look, hc, Flight.unanswered, Flight.overdue, hd, hwaits]
  · simp [Flight.moments, hc, hd, ha, hlt]
  · simp [Flight.look, hc, Flight.unanswered, Flight.overdue, hd]

/-- A request that has arrived is handled; its answer is heard, or lost. -/
theorem look_arrived (w : World) (reading : Span) {now arrival : Nat} {ending : Ending}
    (hc : f.course = .travelling arrival ending) (hm : f.course.Mild) (ha : arrival ≤ now) :
    (∃ b answer, Fate w.broker reading f.request b answer ∧
      f.look now reading w.broker = (b, .answered answer)) ∨
    (∃ r, (w.broker.handle reading f.request).2 = .ok r ∧
      f.look now reading w.broker = ((w.broker.handle reading f.request).1,
        Flight.unanswered { f with course := .lost } now)) := by
  unfold Flight.look
  simp only [hc, if_pos ha]
  rw [hc] at hm
  have hanswered : Fate w.broker reading f.request (w.broker.handle reading f.request).1
      (w.broker.handle reading f.request).2 := .answered
  cases hr : (w.broker.handle reading f.request).2 with
  | error e =>
    rw [hr] at hanswered
    exact Or.inl ⟨_, _, hanswered, by simp [Ending.back]⟩
  | ok r =>
    rw [hr] at hanswered
    cases ending with
    | plain => exact Or.inl ⟨_, _, hanswered, by simp [Ending.back]⟩
    | replaced e => exact Or.inl ⟨_, _, .lost e hm r hr, by simp [Ending.back]⟩
    | lost => exact Or.inr ⟨r, rfl, by simp [Ending.back]⟩

/-- The owner hears of a request that has arrived before the deadline. -/
theorem hears_arrived (number : Nat) (hq : w.Quiet) (ho : w.outcome = none) (ha : w.alarm = none)
    {span : Span} {deadline : Nat} (hd : f.deadline = some (deadline, span)) (hle : w.now ≤ deadline)
    (hf : w.flight = some f) {arrival : Nat} {ending : Ending}
    (hc : f.course = .travelling arrival ending) (hm : f.course.Mild) (harrival : arrival ≤ w.now) :
    ∃ moment b answer ready, Fate w.broker w.reading f.request b answer ∧ ready ⊆ w.ready ∧
      Hears number 3 w { w with broker := b, now := moment, flight := none, ready := ready }
        answer := by
  rcases look_arrived w w.reading hc hm harrival with
    ⟨b, answer, hfate, hlook⟩ | ⟨r, hr, hlook⟩
  · exact ⟨w.now, b, answer, w.ready, hfate, fun _ h => h, (hears_now number ho hf hlook).later.later⟩
  · have hfate : Fate w.broker w.reading f.request (w.broker.handle w.reading f.request).1
        (.error (.timedOut span)) := .lost _ rfl r hr
    by_cases hlt : w.now < deadline
    · have hpending : f.look w.now w.reading w.broker =
          ((w.broker.handle w.reading f.request).1, .pending { f with course := .lost }) := by
        have : ¬ deadline ≤ w.now := by omega
        simp [hlook, Flight.unanswered, Flight.overdue, hd, this]
      exact ⟨deadline, _, _, [], hfate, List.nil_subset _, hears_timeout number hq ho ha
        (g := { f with course := .lost }) hd hlt rfl (attend_pending number ho hf hpending)⟩
    · have hanswered : f.look w.now w.reading w.broker =
          ((w.broker.handle w.reading f.request).1, .answered (.error (.timedOut span))) := by
        have : deadline ≤ w.now := by omega
        simp [hlook, Flight.unanswered, Flight.overdue, hd, this]
      exact ⟨w.now, _, _, w.ready, hfate, fun _ h => h, (hears_now number ho hf hanswered).later.later⟩

/-- **The owner hears of its request**, and when it does the request has had its
fate. -/
theorem hears_flight (number : Nat) (hq : w.Quiet) (ho : w.outcome = none) (ha : w.alarm = none)
    {span : Span} {deadline : Nat} (hd : f.deadline = some (deadline, span)) (hlt : w.now < deadline)
    (hf : w.flight = some f) (hm : f.course.Mild) :
    ∃ moment b answer ready, Fate w.broker w.reading f.request b answer ∧ ready ⊆ w.ready ∧
      Hears number 5 w { w with broker := b, now := moment, flight := none, ready := ready }
        answer := by
  have hwaits : ¬ deadline ≤ w.now := by omega
  have hrefused : Fate w.broker w.reading f.request w.broker (.error (.timedOut span)) :=
    .refused _ rfl
  cases hc : f.course with
  | decided answer =>
    rw [hc] at hm
    obtain ⟨e, rfl, he⟩ := hm
    have hlook : f.look w.now w.reading w.broker = (w.broker, .answered (.error e)) := by
      simp [Flight.look, hc]
    exact ⟨w.now, w.broker, _, w.ready, .refused e he, fun _ h => h,
      (hears_now number ho hf hlook).later.later.later.later⟩
  | deadly =>
    have hears := hears_timeout number hq ho ha (g := { f with course := .lost }) hd hlt rfl
      (attend_deadly number ho hf (b := w.broker) (by simp [Flight.look, hc]))
    exact ⟨deadline, w.broker, _, [], hrefused, List.nil_subset _, hears.later.later⟩
  | lost =>
    have hpending : f.look w.now w.reading w.broker = (w.broker, .pending f) := by
      simp [Flight.look, hc, Flight.unanswered, Flight.overdue, hd, hwaits]
    have hears := hears_timeout number hq ho ha hd hlt hc (attend_pending number ho hf hpending)
    exact ⟨deadline, w.broker, _, [], hrefused, List.nil_subset _, hears.later.later⟩
  | travelling arrival ending =>
    by_cases harrival : arrival ≤ w.now
    · obtain ⟨moment, b, answer, ready, hfate, hready, hears⟩ :=
        hears_arrived number hq ho ha hd (Nat.le_of_lt hlt) hf hc hm harrival
      exact ⟨moment, b, answer, ready, hfate, hready, hears.later.later⟩
    -- the clock goes on to the arrival, or to the deadline if that is earlier
    have hpending : f.look w.now w.reading w.broker = (w.broker, .pending f) := by
      simp [Flight.look, hc, harrival, Flight.unanswered, Flight.overdue, hd, hwaits]
    have hmoment : ((f.moments ++ w.alarm.toList).filter (w.now < ·)).min? =
        some (min arrival deadline) := by
      have harrival : w.now < arrival := by omega
      simp [Flight.moments, hc, hd, ha, hlt, harrival]
    have hnext : ∀ {k : Nat} {w' : World} {answer : Answer}, Hears number k
        { w with flight := some f, ready := [], now := min arrival deadline } w' answer →
        Hears number (k + 2) w w' answer :=
      hears_next hq ho (attend_pending number ho hf hpending) hpending hmoment
    have hq' : Quiet { w with flight := some f, ready := [], now := min arrival deadline } :=
      ⟨hq.watch, by simp, hq.numbered, hq.flights⟩
    by_cases hle : arrival ≤ deadline
    · have hthere : arrival ≤ min arrival deadline := by omega
      obtain ⟨moment, b, answer, ready, hfate, hready, hears⟩ :=
        hears_arrived number hq' ho ha hd (Nat.min_le_right _ _) rfl hc hm hthere
      exact ⟨moment, b, answer, ready, hfate,
        fun a h => absurd (hready h) List.not_mem_nil, hnext hears⟩
    · have hlate : ¬ arrival ≤ min arrival deadline := by omega
      have hover : deadline ≤ min arrival deadline := by omega
      have hlook : f.look (min arrival deadline) w.reading w.broker =
          (w.broker, .answered (.error (.timedOut span))) := by
        simp [Flight.look, hc, hlate, Flight.unanswered, Flight.overdue, hd, hover]
      have hears := hears_now number (w := { w with
        flight := some f, ready := [], now := min arrival deadline }) ho rfl hlook
      exact ⟨min arrival deadline, w.broker, _, [], hrefused, List.nil_subset _,
        hnext hears.later.later⟩

/-! ### Operations -/

/-- Nobody moves, and the owner waits for nothing. -/
structure Still (w : World) : Prop extends w.Quiet where
  links : w.links.Numbered
  flight : w.flight = none
  alarm : w.alarm = none
  outcome : w.outcome = none

/-- A party that cannot move has changed, and fewer may be ready. -/
theorem Quiet.put_party (h : w.Quiet) {p : Party} (hp : w.parties.get? number = some p) (p' : Party)
    (hflight : p'.flight = none) (hmove : canMove p'.session = false) {ready : List Actor}
    (hready : ready ⊆ w.ready) :
    Quiet { w with parties := w.parties.put number p', ready := ready } where
  watch := h.watch
  ready := fun a ha => by
    obtain ⟨k, u, rfl, hu, hk⟩ := h.ready a (hready ha)
    by_cases hkn : number = k
    · exact ⟨k, p', rfl, (Table.get?_put ..).trans (if_pos hkn), hmove⟩
    · exact ⟨k, u, rfl, (Table.get?_put ..).trans ((if_neg hkn).trans hu), hk⟩
  numbered := (h.numbered.put_old hp p').1
  flights := fun k u hu => by
    rw [Table.get?_put] at hu
    split at hu
    · rw [← Option.some.inj hu]
      exact hflight
    · exact h.flights k u hu

/-- What an event of a party is to the world. -/
theorem moveParty_of {p : Party} (hp : w.parties.get? number = some p) {e : Event} {s : Session}
    {effects : List Effect} (hs : p.session.step e = (s, effects)) : w.moveParty number e =
      let p' : Party := ⟨s, p.link, if s.isWorkerGone then none else p.flight⟩
      let w' := effects.foldl (fun w effect => w.act number p' effect)
        { w with parties := w.parties.put number p' }
      if canMove s && !w'.ready.contains (.worker number) then
        { w' with ready := w'.ready ++ [.worker number] }
      else w' := by
  simp only [moveParty, hp, hs]

theorem patience_eq (w : World) : ∃ n, w.patience = n + 5 :=
  ⟨w.patience - 5, by unfold patience; omega⟩

theorem attend_returned {r : Except SessionError Report} (h : w.outcome = some r) (bound : Nat) :
    attend number (bound + 1) w = (w, some r) := by
  rw [attend, h]

/-- An operation ends when the owner finds its result. -/
theorem callUntil_of {operation : Operation} {alarm : Option Nat} {w₁ v : World}
    {r : Except SessionError Report}
    (hmove : ({ w with alarm := alarm } : World).moveParty number (.called operation) = w₁)
    (h : ∀ fuel, await (attend number attention) (fuel + 5) w₁ = (v, some r)) :
    w.callUntil number operation alarm = (v.release, some r) := by
  obtain ⟨n, hn⟩ := patience_eq w₁
  unfold callUntil
  simp only [hmove, hn, h n]

variable {p : Party}

/-- An operation that returns at once. -/
theorem call_of_returned (hstill : w.Still) (hp : w.parties.get? number = some p)
    {operation : Operation} {s : Session} {r : Except SessionError Report}
    (hs : p.session.step (.called operation) = (s, [.returned r])) (hmove : canMove s = false) :
    w.call number operation =
      ({ w with parties := w.parties.put number ⟨s, p.link, none⟩ }, some r) := by
  have hmoved : ({ w with alarm := none } : World).moveParty number (.called operation) =
      { w with
        alarm := none
        outcome := some r
        parties := w.parties.put number ⟨s, p.link, none⟩ } := by
    rw [moveParty_of (w := { w with alarm := none }) hp hs, hstill.flights number p hp]
    simp [act, hmove]
  refine (callUntil_of hmoved fun fuel => await_found (attend_returned rfl 7) (fuel + 4)).trans ?_
  simp [release, hstill.flight, hstill.alarm, hstill.outcome]

/-- The world once a party, on its way to `s`, has made a request over its
link. -/
def asking (w : World) (number : Nat) (p : Party) (l : Link) (s : Session) (q : Request) : World :=
  { w with
    alarm := none
    waits := w.waits + 1
    notes := .request q :: w.notes
    links := w.links.put p.link (l.depart w.now q).1
    parties := w.parties.put number ⟨s, p.link, none⟩
    flight := some ⟨q, (l.depart w.now q).2,
      some (w.now + s.config.requestTimeout.ticks, s.config.requestTimeout), w.waits⟩ }

/-- An operation that makes a request returns when the request has had its
fate. -/
theorem call_of_asked (hstill : w.Still) (hp : w.parties.get? number = some p)
    {l : Link} (hl : w.links.get? p.link = some l) (hopen : l.closed = false) {q : Request}
    (hq : ∀ topic, q ≠ .listing topic) (hplan : MildPlan q.kind l.faults)
    {operation : Operation} {s : Session} (htimeout : 0 < s.config.requestTimeout.nanos)
    (hs : p.session.step (.called operation) = (s, [.asked q])) (hmove : canMove s = false) :
    ∃ moment b answer ready faults, Fate w.broker w.reading q b answer ∧ ready ⊆ w.ready ∧
      MildPlan q.kind faults ∧
      ∀ s' r, s.step (.answered answer) = (s', [.returned r]) → canMove s' = false →
        w.call number operation =
          ({ w with
              now := moment
              broker := b
              ready := ready
              waits := w.waits + 1
              notes := .request q :: w.notes
              links := w.links.put p.link { l with faults := faults }
              parties := w.parties.put number ⟨s', p.link, none⟩ }, some r) := by
  obtain ⟨hmild, hplan', hlink⟩ := mild_depart hopen hq hplan w.now
  have hmoved : ({ w with alarm := none } : World).moveParty number (.called operation) =
      w.asking number p l s q := by
    rw [moveParty_of (w := { w with alarm := none }) hp hs, hstill.flights number p hp]
    simp [asking, act, depart, note, hl, fly, hmove]
  have hquiet := hstill.put_party hp ⟨s, p.link, none⟩ rfl hmove (fun _ h => h)
  obtain ⟨moment, b, answer, ready, hfate, hready, hears⟩ := hears_flight number
    (w := w.asking number p l s q) ⟨hstill.watch, hquiet.ready, hquiet.numbered, hquiet.flights⟩
    hstill.outcome rfl rfl (Nat.lt_add_of_pos_right (Span.ticks_pos htimeout)) rfl hmild
  refine ⟨moment, b, answer, ready, _, hfate, hready, hplan', fun s' r hs' hmove' => ?_⟩
  -- the answer moves the session to its end
  have hself : ({ w.asking number p l s q with
      broker := b, now := moment, flight := none, ready := ready } : World).parties.get? number =
      some ⟨s, p.link, none⟩ := Table.get?_put_self _ _ _
  have hanswered := moveParty_of hself hs'
  simp only [ite_self, List.foldl_cons, List.foldl_nil, act, hmove', Bool.false_and,
    Bool.false_eq_true, if_false] at hanswered
  have hattend := (congrArg (attend number 7) hanswered).trans (attend_returned rfl 6)
  have hcall := callUntil_of hmoved fun fuel => hears 7 fuel _ r hattend
  refine hcall.trans ?_
  rw [← hlink]
  simp [asking, release, hstill.flight, hstill.alarm, hstill.outcome, Table.put_put]

/-! ### Sleep -/

/-- Whether the sleep is over. -/
def nap (w : World) : World × Option Unit :=
  (w, if w.alarm.all (· ≤ w.now) then some () else none)

theorem nap_early {moment : Nat} (ha : w.alarm = some moment) (hlt : w.now < moment) :
    w.nap = (w, none) := by
  have : ¬ moment ≤ w.now := by omega
  simp [nap, ha, this]

theorem nap_over {moment : Nat} (ha : w.alarm = some moment) (hle : moment ≤ w.now) :
    w.nap = (w, some ()) := by
  simp [nap, ha, hle]

theorem Quiet.advance_alarm (h : w.Quiet) (hf : w.flight = none) {moment : Nat}
    (ha : w.alarm = some moment) (hlt : w.now < moment) :
    w.advance = some { w with now := moment } :=
  h.advance (by simp [ownerMoments, hf, ha, hlt])

/-- While the owner sleeps nothing happens. -/
theorem await_nap (h : w.Quiet) (hf : w.flight = none) {moment : Nat}
    (ha : w.alarm = some moment) (n : Nat) : ∃ now ready, ready ⊆ w.ready ∧
      await nap (n + 3) w = ({ w with now := now, ready := ready }, some ()) := by
  by_cases hlt : w.now < moment
  · have hover : ∀ ready k, await nap (k + 1) { w with now := moment, ready := ready } =
        ({ w with now := moment, ready := ready }, some ()) := fun ready k =>
      await_found (nap_over (w := { w with now := moment, ready := ready }) ha (Nat.le_refl _)) k
    by_cases hr : w.ready = []
    · refine ⟨moment, w.ready, fun _ h => h, ?_⟩
      exact (await_advance (nap_early ha hlt) hr (h.advance_alarm hf ha hlt) _).trans
        (hover w.ready (n + 1))
    · -- those who are ready come first, and the owner looks again
      have hq : Quiet { w with ready := [] } := ⟨h.watch, by simp, h.numbered, h.flights⟩
      have hadvance := hq.advance_alarm hf ha hlt
      refine ⟨moment, [], List.nil_subset _, ?_⟩
      rw [await_serve (nap_early ha hlt) hr, h.serveReady]
      exact (await_advance (nap_early (w := { w with ready := [] }) ha hlt) rfl hadvance _).trans
        (hover [] n)
  · exact ⟨w.now, w.ready, fun _ h => h, await_found (nap_over ha (Nat.le_of_not_lt hlt)) _⟩

theorem sleep_of_still (h : w.Still) (span : Span) : ∃ moment ready, ready ⊆ w.ready ∧
    w.sleep span = { w with now := moment, ready := ready } := by
  obtain ⟨n, hn⟩ := patience_eq { w with alarm := some (w.now + span.ticks) }
  have hq : Quiet { w with alarm := some (w.now + span.ticks) } :=
    ⟨h.watch, h.ready, h.numbered, h.flights⟩
  obtain ⟨moment, ready, hready, hawait⟩ := await_nap hq h.flight rfl (n + 2)
  refine ⟨moment, ready, hready, ?_⟩
  have hsleep : w.sleep span = (await nap (patience { w with alarm := some (w.now + span.ticks) })
    { w with alarm := some (w.now + span.ticks) }).1.release := rfl
  rw [hsleep, hn, hawait]
  simp [release, h.flight, h.alarm, h.outcome]

end World
end FencedLog
