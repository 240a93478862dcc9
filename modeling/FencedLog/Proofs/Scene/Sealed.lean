/-
# A session leaves no transaction open behind it

A session ends its transaction without asking the broker if it has started
nothing, or if its identity has lost its authority. It asks otherwise, and may
not hear how it was answered. Neither loses a transaction: when a session is
ready again, and has inherited none, no transaction is ongoing under its
identity (`Scene.none_left_open`).

What carries this through a run is when the session can know that nothing is
ongoing (`Stance.Clear`): while it has started nothing, after a terminal error,
and on an answer that is final. After a terminal error the worker is silent, so
nothing can be started any more.

Key definitions: `Scene.Sole`, `Stance.Clear`, `Sealed`.
Key theorems: `Scene.Sealed.step`, `Reaches.sealed`, `Scene.none_left_open`.
-/
import FencedLog.Proofs.Scene.Alone
import FencedLog.Proofs.Scene.Handoff

namespace FencedLog

open Stance

/-- The session has begun no transaction, or none that the broker could know
of. -/
def Stance.Unstarted (v : Stance) : Prop := Settled v ∨ (Scene.Within v ∧ v.started = false)

/-- No transaction of the session's is ongoing, as far as it can know. -/
def Stance.Clear (v : Stance) : Prop :=
  v.lifecycle = .uninitialized ∨ (v.inherited = false ∧ v.Unstarted)

/-- A refusal that fences is on the line. -/
def Line.Fences (line : Line) : Prop := ∃ e, line = .replied (.error e) ∧ e.isFencing = true

/-- An answer after which nothing is ongoing: the end of a transaction, or a
refusal that fences. -/
def Line.Final (line : Line) : Prop := line = .replied (.ok .finished) ∨ line.Fences

/-- The session's own request is to end a transaction. -/
def Stance.Finishing (v : Stance) : Prop := ∃ o back, v.wait = .finish o back

/-- The session has this identity, or is about to hear of it. -/
def Stance.Holds (v : Stance) (own : Line) (id : Identity) : Prop :=
  v.identity = some id ∨ own = .replied (.ok (.identity id))

/-- What a session and its lines know of the transactions that are ongoing under
its identity. -/
structure Sealed (c : Coordinator) (v : Stance) (own work : Line) : Prop where
  /-- None is ongoing for another transactional id. -/
  native : ∀ id, v.Holds own id → ∀ x, c.UnderWay x id → x = v.config.txid
  clear : v.Clear → ∀ id, v.Holds own id → ¬ c.UnderWay v.config.txid id
  fatal : v.fatal = true → ∃ id, v.identity = some id ∧ ¬ c.UnderWay v.config.txid id
  heard : v.Finishing → own.Final → ∀ id, v.identity = some id → ¬ c.UnderWay v.config.txid id
  told : work.Final → ∀ id, v.identity = some id → ¬ c.UnderWay v.config.txid id

namespace Sealed

variable {c c' : Coordinator} {v v' : Stance} {own own' work work' : Line}

/-- Nothing has come under way. -/
theorem mono (h : Sealed c v own work)
    (hc : ∀ x id, v.Holds own id → c'.UnderWay x id → c.UnderWay x id) : Sealed c' v own work where
  native := fun id hh x hw => h.native id hh x (hc x id hh hw)
  clear := fun hcl id hh hw => h.clear hcl id hh (hc _ id hh hw)
  fatal := fun hf => by
    obtain ⟨id, hid, hn⟩ := h.fatal hf
    exact ⟨id, hid, fun hw => hn (hc _ id (Or.inl hid) hw)⟩
  heard := fun hw hl id hid hu => h.heard hw hl id hid (hc _ id (Or.inl hid) hu)
  told := fun hl id hid hu => h.told hl id hid (hc _ id (Or.inl hid) hu)

/-- Something else is on the session's line. -/
theorem on_own (h : Sealed c v own work)
    (hid : ∀ id, own' = .replied (.ok (.identity id)) → ∀ x, ¬ c.UnderWay x id)
    (hfinal : v.Finishing → own'.Final → ∀ id, v.identity = some id →
      ¬ c.UnderWay v.config.txid id) : Sealed c v own' work where
  native := fun id hh x hw => by
    rcases hh with hh | hh
    · exact h.native id (Or.inl hh) x hw
    · exact absurd hw (hid id hh x)
  clear := fun hcl id hh => by
    rcases hh with hh | hh
    · exact h.clear hcl id (Or.inl hh)
    · exact hid id hh _
  fatal := h.fatal
  heard := hfinal
  told := h.told

/-- Something else is on the worker's line. -/
theorem on_work (h : Sealed c v own work)
    (hfinal : work'.Final → ∀ id, v.identity = some id → ¬ c.UnderWay v.config.txid id) :
    Sealed c v own work' :=
  ⟨h.native, h.clear, h.fatal, h.heard, hfinal⟩

/-- The session goes on under the identity that it has, and its worker asks
something else, or nothing. -/
theorem goes (h : Sealed c v own work) (hcfg : v'.config = v.config)
    (hid : v'.identity = v.identity) (hfin : v'.Finishing → v.Finishing)
    (hclear : v'.Clear → v.Clear)
    (hfatal : v'.fatal = true → v.fatal = true ∨ (work.Final ∧ v.identity ≠ none))
    (hunheard : ∀ answer, work' ≠ .replied answer) : Sealed c v' own work' := by
  have held : ∀ id, v'.Holds own id → v.Holds own id := fun id hh => by rwa [Holds, hid] at hh
  refine ⟨?_, ?_, ?_, ?_, ?_⟩
  · rw [hcfg]
    exact fun id hh => h.native id (held id hh)
  · rw [hcfg]
    exact fun hcl id hh => h.clear (hclear hcl) id (held id hh)
  · rw [hcfg, hid]
    intro hf
    rcases hfatal hf with hf | ⟨hl, hne⟩
    · exact h.fatal hf
    · obtain ⟨id, hsome⟩ := Option.ne_none_iff_exists'.mp hne
      exact ⟨id, hsome, h.told hl id hsome⟩
  · rw [hcfg, hid]
    exact fun hw => h.heard (hfin hw)
  · rintro (hl | ⟨e, hl, -⟩) <;> exact absurd hl (hunheard _)

/-- The session takes an event, and goes on under the identity that it has. -/
theorem turns (h : Sealed c v own work) (hcfg : v'.config = v.config)
    (hid : v'.identity = v.identity) (hown : ∀ answer, own' ≠ .replied answer)
    (hclear : v'.Clear → v.Clear ∨ ∀ id, v.identity = some id → ¬ c.UnderWay v.config.txid id)
    (hfatal : v'.fatal = true →
      v.fatal = true ∨ ((v.Finishing ∧ own.Final) ∧ v.identity ≠ none)) :
    Sealed c v' own' work := by
  have held : ∀ id, v'.Holds own' id → v.identity = some id := by
    rintro id (hh | hh)
    · exact hid ▸ hh
    · exact absurd hh (hown _)
  refine ⟨?_, ?_, ?_, ?_, ?_⟩
  · rw [hcfg]
    exact fun id hh => h.native id (Or.inl (held id hh))
  · rw [hcfg]
    intro hcl id hh
    rcases hclear hcl with hcl | hn
    · exact h.clear hcl id (Or.inl (held id hh))
    · exact hn id (held id hh)
  · rw [hcfg, hid]
    intro hf
    rcases hfatal hf with hf | ⟨⟨hw, hl⟩, hne⟩
    · exact h.fatal hf
    · obtain ⟨id, hsome⟩ := Option.ne_none_iff_exists'.mp hne
      exact ⟨id, hsome, h.heard hw hl id hsome⟩
  · rintro - (hl | ⟨e, hl, -⟩) <;> exact absurd hl (hown _)
  · rw [hcfg, hid]
    exact h.told

/-- The session takes an identity under which it can know of nothing. -/
theorem acquired (hcfg : v'.config = v.config) {id : Identity}
    (hid : v'.identity = some id) (hown : ∀ answer, own' ≠ .replied answer)
    (hnative : ∀ x, c.UnderWay x id → x = v.config.txid)
    (hclear : v'.Clear → ¬ c.UnderWay v.config.txid id) (hfatal : v'.fatal = false) :
    Sealed c v' own' .idle := by
  have held : ∀ id', v'.Holds own' id' → id' = id := by
    rintro id' (hh | hh)
    · exact Option.some.inj (hh.symm.trans hid)
    · exact absurd hh (hown _)
  refine ⟨?_, ?_, ?_, ?_, ?_⟩
  · rw [hcfg]
    exact fun id' hh => held id' hh ▸ hnative
  · rw [hcfg]
    exact fun hcl id' hh => held id' hh ▸ hclear hcl
  · intro hf
    rw [hfatal] at hf
    cases hf
  · rintro - (hl | ⟨e, hl, -⟩) <;> exact absurd hl (hown _)
  · rintro (hl | ⟨e, hl, -⟩) <;> cases hl

end Sealed

/-! ### What the broker answers -/

namespace Broker

variable {b : Broker} {x : String} {id : Identity} {now : Span} {e : BrokerError}

/-- A request other than to enroll brings nothing under way. -/
theorem underWay_of_ne {op : Op} (hs : b.coordinator.Sound)
    (hop : ∀ now ps, op ≠ .request now (.enroll x id ps))
    (hw : (b.act op).coordinator.UnderWay x id) : b.coordinator.UnderWay x id :=
  (underWay_act hs hw).resolve_right fun ⟨now, ps, he⟩ => hop now ps he

/-- What is under way is not fenced. -/
theorem not_underWay_of_fencing {q : Request} (hq : Under x id q)
    (h : (b.handle now q).2 = .error e) (he : e.isFencing = true) :
    ¬ b.coordinator.UnderWay x id := by
  rintro ⟨t, hd, -, rfl⟩
  rw [not_isFencing_of_current hd hq h] at he
  cases he

/-- After a positive answer to an end request nothing is under way. -/
theorem not_underWay_of_finished (hs : b.coordinator.Sound) {o : Outcome} {r : Reply}
    (h : (b.handle now (.finish x id o)).2 = .ok r) :
    ¬ (b.act (.request now (.finish x id o))).coordinator.UnderWay x id := by
  intro hw
  have hbefore := underWay_of_ne hs (by simp) hw
  rw [(finish_ok h).1] at hw
  exact Coordinator.finish_of_underWay hs hbefore o hw

/-- Under an identity that has just been given out nothing is under way. -/
theorem not_underWay_of_given (hs : b.coordinator.Sound) {timeout : Span}
    (h : (b.handle now (.init x timeout)).2 = .ok (.identity id)) (y : String) :
    ¬ (b.act (.request now (.init x timeout))).coordinator.UnderWay y id := by
  obtain ⟨hhad, hnone⟩ := init_ok hs h
  rintro ⟨t, hd, hst, hid⟩
  have hy : y = x := hhad.alone y t hd (by rw [hid])
  exact hnone ⟨t, hy ▸ hd, hst, hid⟩

end Broker

/-! ### The session's strides -/

section
variable {v v' : Stance} {e : Event} {chapter chapter' : Chapter} {call' : Option Call}

/-- A session keeps its identity, unless it is new and takes one: an answer, or
what it is told to resume. -/
theorem Stride.identity (h : Stride v e v' chapter chapter' call') :
    (v'.config = v.config ∧ v'.identity = v.identity) ∨
      v.lifecycle = .uninitialized ∧ ∃ id inherited,
        ((e = .answered (.ok (.identity id)) ∧ inherited = false) ∨
          (inherited = true ∧ ∃ op, e = .called op ∧ op.resumed? = some id)) ∧
        v' = { v with
          lifecycle := .ready, identity := some id, inherited := inherited, wait := .nothing
          worker := some ⟨v.config.txid, id, v.config.maxBatch, [], [], .idle, false⟩ } := by
  cases h with
  | quiet hk => exact Or.inl ⟨hk.config, hk.identity⟩
  | sent s p hp hc he hl hv => rcases hv with rfl | ⟨w, hw, hph, rfl⟩ <;> exact Or.inl ⟨rfl, rfl⟩
  | begun w started hw hl hp hc he hv => exact Or.inl (hv ▸ ⟨rfl, rfl⟩)
  | acquired id inherited hl hi hc he hv => exact Or.inr ⟨hl, id, inherited, hi, hv⟩
  | finishing o back hc he hl hr hv => exact Or.inl (hv ▸ ⟨rfl, rfl⟩)
  | concluded o hc he h hv => exact Or.inl (hv ▸ ⟨rfl, rfl⟩)
  | refused o back err fatal hc he hw ha hf hv => exact Or.inl (hv ▸ ⟨rfl, rfl⟩)

/-- A terminal error comes of an end request that was refused as fenced, or was
known before. -/
theorem Stride.fatal (h : Stride v e v' chapter chapter' call') (hf : v'.fatal = true) :
    v.fatal = true ∨ (v.Finishing ∧ v.identity ≠ none ∧
      ∃ err, e = .answered (.error err) ∧ err.isFencing = true) := by
  cases h with
  | quiet hk => exact Or.inl (hk.fatal ▸ hf)
  | sent s p hp hc he hl hv =>
    rcases hv with rfl | ⟨w, hw, hph, rfl⟩ <;> exact Or.inl hf
  | begun w started hw hl hp hc he hv =>
    subst hv
    exact Or.inl hf
  | acquired id inherited hl hi hc he hv =>
    subst hv
    exact Or.inl hf
  | finishing o back hc he hl hr hv =>
    subst hv
    exact Or.inl hf
  | concluded o hc he h hv =>
    subst hv
    exact Or.inl hf
  | refused o back err fatal hc he hw ha hfat hv =>
    subst hv
    rcases hfat.mp hf with hf | ⟨hne, x, n, k, rfl⟩
    · exact Or.inl hf
    · exact Or.inr ⟨⟨o, back, hw⟩, hne, _, ha, rfl⟩

/-- A session comes to have started nothing only from where it knew that nothing
was ongoing, or by hearing that its transaction has ended. -/
theorem Stride.unstarted (h : Stride v e v' chapter chapter' call') (hi' : v'.inherited = false)
    (hun : v'.Unstarted) :
    v.Clear ∨ v.fatal = true ∨ (v.Finishing ∧ e = .answered (.ok .finished)) := by
  cases h with
  | quiet hk hchap hended hi hw hr hl =>
    refine Or.inl (Or.inr ⟨hi ▸ hi', ?_⟩)
    rcases hun with (hset | ⟨o, hwait⟩) | ⟨hin | ⟨o, hwait⟩, hst⟩
    · rcases hl with ⟨hl, -⟩ | ⟨-, hl⟩ | hl
      · exact Or.inl (Or.inl (hl.symm.trans hset))
      · exact Or.inl (Or.inl hl)
      · cases hl.symm.trans hset
    · exact absurd hwait (hw o _)
    · rcases hl with ⟨hl, hs⟩ | ⟨hl, -⟩ | hl
      · exact Or.inr ⟨Or.inl (hl.symm.trans hin), hs.symm.trans hst⟩
      · cases hl.symm.trans hin
      · cases hl.symm.trans hin
    · exact absurd hwait (hw o _)
  | sent s p hp hchap hended hl hv =>
    have hkeep : v'.inherited = v.inherited ∧ v'.started = v.started ∧
        v'.lifecycle = .inTransaction ∧ v'.wait = .nothing := by
      rcases hv with rfl | ⟨w, hw, hph, rfl⟩ <;> exact ⟨rfl, rfl, hl, rfl⟩
    obtain ⟨hi, hs, hlc, hwait⟩ := hkeep
    refine Or.inl (Or.inr ⟨hi ▸ hi', ?_⟩)
    rcases hun with (hset | ⟨o, hset⟩) | ⟨-, hst⟩
    · cases hlc.symm.trans hset
    · cases hwait.symm.trans hset
    · exact Or.inr ⟨Or.inl hl, hs.symm.trans hst⟩
  | begun w started hw hl hp hchap hended hv =>
    subst hv
    exact Or.inl (Or.inr ⟨hi', Or.inl (Or.inl hl)⟩)
  | acquired id inherited hl => exact Or.inl (Or.inl hl)
  | finishing o back hchap hended hl hr hv =>
    subst hv
    refine Or.inl (Or.inr ⟨hi', ?_⟩)
    rcases hun with (hset | ⟨o', hwait⟩) | ⟨hin | ⟨o', hwait⟩, hst⟩
    · cases o <;> cases hset
    · obtain ⟨-, rfl⟩ := Wait.finish.inj hwait
      exact Or.inl (Or.inl hl)
    · cases o <;> cases hin
    · obtain ⟨-, rfl⟩ := Wait.finish.inj hwait
      exact Or.inr ⟨Or.inl hl, hst⟩
  | concluded o hchap hended h hv =>
    rcases h with ⟨back, hw, ha⟩ | ⟨-, hl, ⟨hf, -⟩ | ⟨-, hi, hst⟩⟩
    · exact Or.inr (Or.inr ⟨⟨o, back, hw⟩, ha⟩)
    · exact Or.inr (Or.inl hf)
    · exact Or.inl (Or.inr ⟨hi, Or.inr ⟨Or.inl hl, hst⟩⟩)
  | refused o back err fatal hchap hended hw ha hfat hv =>
    subst hv
    refine Or.inl (Or.inr ⟨hi', ?_⟩)
    rcases hun with (hset | ⟨o', hwait⟩) | ⟨hin | ⟨o', hwait⟩, hst⟩
    · exact Or.inl (Or.inr ⟨o, hw.trans (congrArg _ hset)⟩)
    · cases hwait
    · exact Or.inr ⟨Or.inr ⟨o, hw.trans (congrArg _ hin)⟩, hst⟩
    · cases hwait

end

namespace Scene

variable {σ τ : Scene} {a : Act}

/-- After a terminal error the worker asks nothing. -/
def Silent (σ : Scene) : Prop := σ.session.stance.fatal = true → ∀ q, σ.work ≠ .sent q

theorem silent_start (broker : BrokerConfig) (config : SessionConfig) :
    (start broker config).Silent := fun h => nomatch h

theorem unsent_reply (answer : Answer) (lost : Option BrokerError) (q : Request) :
    reply answer lost ≠ .sent q := by
  cases lost <;> exact fun h => nomatch h

theorem Silent.step (h : σ.Silent) (hc : σ.Coupled) (hs : σ.Step a τ) : τ.Silent := by
  cases hs with
  | reachWork now lost q hq => exact fun _ => unsent_reply _ lost
  | refuseWork e q hq => exact fun _ q' hl => nomatch hl
  | turn a e τ hcall hanswer ht =>
    intro hf q hq
    rw [ht.work] at hq
    rcases ht.stride.fatal hf with hf | ⟨⟨o, back, hw⟩, -⟩
    · exact h hf q hq
    · exact (hc.busy hq).2 o back hw
  | moved a w w₀ w' barrier loads acked err q fatal started s' hw hsrc hn hfatal hst hen hv hq =>
    intro hf q' hl
    rw [hv] at hf
    rw [hq hf] at hl
    cases hl
  | stopped => exact fun _ q' hl => nomatch hl
  | _ => exact h

/-! ### The session's transactions -/

/-- What may happen when no other client uses the session's identity: no request
of others is under it, and when the session resumes an identity there is no
transaction under way under that identity but one of the session's own
transactional id, since another one could only be another client's. Each request
fails with an error that may be retried before it reaches the broker, or is
carried out with its answer heard or lost. -/
def Sole (σ : Scene) : Act → Prop
  | .call op => ∀ id, op.resumed? = some id →
      ∀ x, σ.chronicle.broker.coordinator.UnderWay x id → x = σ.session.config.txid
  | .others op => ∀ id, σ.Holds id → ∀ now q, op = .request now q → ∀ x, ¬ Broker.Under x id q
  | .reach _ _ lost => ∀ e, lost = some e → e.isRetriable = true
  | .refuse _ e => e.isRetriable = true
  | _ => True

theorem Sole.fair (h : σ.Sole a) : σ.Fair a := by
  cases a with
  | others op =>
    rintro ⟨id, hid, ⟨now, ps, he⟩ | ⟨now, p, records, he⟩⟩
    · exact h id hid now _ he _ ⟨rfl, rfl⟩
    · exact h id hid now _ he _ ⟨rfl, rfl⟩
  | _ => trivial

/-- What is known of the transactions under the session's identity. -/
def Sealed (σ : Scene) : Prop :=
  FencedLog.Sealed σ.chronicle.broker.coordinator σ.session.stance σ.own σ.work

theorem sealed_start (broker : BrokerConfig) (config : SessionConfig) :
    (start broker config).Sealed where
  native := fun id h => by rcases h with h | h <;> cases h
  clear := fun _ id h => by rcases h with h | h <;> cases h
  fatal := fun h => nomatch h
  heard := fun _ h => by rcases h with h | ⟨e, h, -⟩ <;> cases h
  told := fun h => by rcases h with h | ⟨e, h, -⟩ <;> cases h

/-- An error that may be retried does not fence. -/
theorem not_fences_of_retriable {e : BrokerError} (he : e.isRetriable = true) :
    ¬ (Line.replied (.error e)).Fences := by
  rintro ⟨e', h, he'⟩
  obtain rfl : e = e' := Except.error.inj (Line.replied.inj h)
  rw [BrokerError.not_isFencing_of_isRetriable he] at he'
  cases he'

/-- A refusal that fences has not been lost. -/
theorem fences_of_reply {answer : Answer} {lost : Option BrokerError}
    (hlost : ∀ e, lost = some e → e.isRetriable = true) (h : (reply answer lost).Fences) :
    ∃ e, answer = .error e ∧ e.isFencing = true := by
  cases lost with
  | none =>
    obtain ⟨e, h, he⟩ := h
    exact ⟨e, Line.replied.inj h, he⟩
  | some e => exact absurd h (not_fences_of_retriable (hlost e rfl))

/-- An answer that was lost is not final. -/
theorem final_of_reply {answer : Answer} {lost : Option BrokerError}
    (hlost : ∀ e, lost = some e → e.isRetriable = true) (h : (reply answer lost).Final) :
    answer = .ok .finished ∨ ∃ e, answer = .error e ∧ e.isFencing = true := by
  rcases h with h | h
  · cases lost with
    | none => exact Or.inl (Line.replied.inj h)
    | some e => cases h
  · exact Or.inr (fences_of_reply hlost h)

theorem reply_identity {answer : Answer} {lost : Option BrokerError} {id : Identity}
    (h : reply answer lost = .replied (.ok (.identity id))) : answer = .ok (.identity id) := by
  cases lost with
  | none => exact Line.replied.inj h
  | some e => cases h

/-- The broker answers the session. -/
theorem Sealed.reachOwn (h : σ.Sealed) (hc : σ.Coupled)
    (hs : σ.chronicle.broker.coordinator.Sound) {q : Request} (hq : σ.own = .sent q) (now : Span)
    {lost : Option BrokerError} (hlost : ∀ e, lost = some e → e.isRetriable = true) :
    (σ.reachOwn now lost q).Sealed := by
  have hmono : FencedLog.Sealed (σ.chronicle.act (.request now q)).broker.coordinator
      σ.session.stance σ.own σ.work :=
    h.mono fun x id _ => Broker.underWay_of_ne hs fun now' ps => hc.own_ne_enroll hq now x id now' ps
  refine hmono.on_own (fun id hid => ?_) fun hw hl id hid => ?_
  · replace hid := reply_identity hid
    rcases hc.asked hq with ⟨-, timeout, rfl⟩ | ⟨topic, rfl, -⟩ | ⟨o, back, id', -, -, rfl⟩
    · exact Broker.not_underWay_of_given hs hid
    · have hfits := fits_handle σ.chronicle.broker now (.listing topic)
      rw [hid] at hfits
      exact hfits.elim
    · have hfits := fits_handle σ.chronicle.broker now (.finish σ.session.config.txid id' o)
      rw [hid] at hfits
      exact hfits.elim
  · obtain ⟨o, back, hw⟩ := hw
    obtain ⟨id', hid', rfl⟩ := hc.asked_end hq hw
    obtain rfl := Option.some.inj (hid.symm.trans hid')
    have hunder : Broker.Under σ.session.config.txid id (.finish σ.session.config.txid id o) :=
      ⟨rfl, rfl⟩
    rcases final_of_reply hlost hl with hok | ⟨e, herr, he⟩
    · exact Broker.not_underWay_of_finished hs hok
    · exact fun hu => Broker.not_underWay_of_fencing hunder herr he
        (Broker.underWay_of_ne hs (by simp) hu)

/-- A request of the worker has been refused. -/
theorem Sealed.refusal (h : σ.Sealed) {q : Request} {now : Span}
    {lost : Option BrokerError} (hlost : ∀ e, lost = some e → e.isRetriable = true)
    {e : BrokerError} (he : (σ.chronicle.broker.handle now q).2 = .error e)
    (hunder : ∀ id, σ.session.stance.identity = some id →
      Broker.Under σ.session.config.txid id q)
    (hback : ∀ x id, (σ.chronicle.broker.act (.request now q)).coordinator.UnderWay x id →
      σ.chronicle.broker.coordinator.UnderWay x id) :
    FencedLog.Sealed (σ.chronicle.broker.act (.request now q)).coordinator σ.session.stance σ.own
      (reply (.error e) lost) := by
  refine (h.mono fun x id _ => hback x id).on_work fun hl id hid hu => ?_
  rcases final_of_reply hlost hl with hok | ⟨e', herr, hfence⟩
  · cases hok
  · obtain rfl := Except.error.inj herr
    exact Broker.not_underWay_of_fencing (hunder id hid) he hfence (hback _ id hu)

/-- The broker answers the worker, who is at work only in a transaction that it
has started. -/
theorem Sealed.reachWork (h : σ.Sealed) (hsi : σ.Silent) (hc : σ.Coupled) (hco : σ.Concluded)
    (hs : σ.chronicle.broker.coordinator.Sound) {q : Request} (hq : σ.work = .sent q) (now : Span)
    {lost : Option BrokerError} (hlost : ∀ e, lost = some e → e.isRetriable = true) :
    (σ.reachWork now lost q).Sealed := by
  obtain ⟨w, hw, hm, hreq⟩ := hc.ordered hq
  have hx : w.txid = σ.session.config.txid := hm.txid
  have held : ∀ id, σ.session.stance.identity = some id → w.identity = id := fun id hid =>
    Option.some.inj (hm.identity.symm.trans hid)
  obtain ⟨hset, hfin⟩ := hc.busy hq
  have hopen : ∀ r, r ≠ .finished → ¬ (reply (.ok r) lost).Final := by
    intro r hr hl
    rcases final_of_reply hlost hl with hl | ⟨e, hl, -⟩
    · exact hr (Except.ok.inj hl)
    · cases hl
  rcases hreq with ⟨fresh, batches, barrier, hp, rfl⟩ | ⟨batch, rest, barrier, hp, rfl⟩
  · have hunder : ∀ id, σ.session.stance.identity = some id →
        Broker.Under σ.session.config.txid id (.enroll w.txid w.identity fresh) :=
      fun id hid => ⟨hx, held id hid⟩
    rcases fits_enroll (fits_handle σ.chronicle.broker now (.enroll w.txid w.identity fresh)) with
      hok | ⟨e, he⟩
    · -- what comes under way is the worker's own, of a session that has started it
      have hstarted := hco.started
      have hunclear : ¬ σ.session.stance.Clear := by
        rintro (hl | ⟨-, hn | ⟨hin, hst⟩⟩)
        · rw [hc.fresh hl] at hw
          cases hw
        · exact hset hn
        · rw [hstarted hin (Or.inr (hc.enrolling hq))] at hst
          cases hst
      have hcalm : σ.session.stance.fatal ≠ true := fun hf => hsi hf _ hq
      constructor
      case native =>
        intro id hh x hu
        rcases Broker.underWay_act hs hu with hu | ⟨now', ps, heq⟩
        · exact h.native id hh x hu
        · obtain ⟨-, heq⟩ := Broker.Op.request.inj heq
          obtain ⟨rfl, -, -⟩ := Request.enroll.inj heq
          exact hx
      case clear => exact fun hcl => absurd hcl hunclear
      case fatal => exact fun hf => absurd hf hcalm
      case heard =>
        rintro ⟨o, back, hwait⟩
        exact absurd hwait (hfin o back)
      case told =>
        intro hl
        rw [Scene.reachWork, hok] at hl
        exact absurd hl (hopen _ (by simp))
    · have hback : ∀ x id, (σ.chronicle.broker.act (.request now
          (.enroll w.txid w.identity fresh))).coordinator.UnderWay x id →
            σ.chronicle.broker.coordinator.UnderWay x id := by
        rintro x id ⟨t, hd, ht⟩
        exact ⟨t, (Broker.describe_of_refused he x).symm.trans hd, ht⟩
      have hrefused := h.refusal hlost he hunder hback
      rwa [← he] at hrefused
  · have hunder : ∀ id, σ.session.stance.identity = some id → Broker.Under σ.session.config.txid id
        (.append w.txid w.identity batch.partition batch.records) := fun id hid => ⟨hx, held id hid⟩
    have hback : ∀ x id, (σ.chronicle.broker.act (.request now
        (.append w.txid w.identity batch.partition batch.records))).coordinator.UnderWay x id →
          σ.chronicle.broker.coordinator.UnderWay x id :=
      fun x id hu => Broker.underWay_of_ne hs (by simp) hu
    rcases fits_append (fits_handle σ.chronicle.broker now
      (.append w.txid w.identity batch.partition batch.records)) with ⟨base, hok⟩ | ⟨e, he⟩
    · refine (h.mono fun x id _ => hback x id).on_work fun hl => ?_
      rw [Scene.reachWork, hok] at hl
      exact absurd hl (hopen _ (by simp))
    · have hrefused := h.refusal hlost he hunder hback
      rwa [← he] at hrefused

/-! ### The session and its worker -/

/-- An event of the session. -/
theorem Sealed.turn (h : σ.Sealed) (hc : σ.Coupled) (hτ : τ.Coupled) {e : Event}
    (hresume : ∀ op id, e = .called op → op.resumed? = some id →
      ∀ x, σ.chronicle.broker.coordinator.UnderWay x id → x = σ.session.config.txid)
    (hanswer : ∀ answer, e = .answered answer → σ.own = .replied answer)
    (ht : σ.Turned e τ.session τ) : τ.Sealed := by
  show FencedLog.Sealed τ.chronicle.broker.coordinator τ.session.stance τ.own τ.work
  rw [ht.chronicle, ht.work]
  have hstride := ht.stride
  have huninit := hτ.fresh
  have hanon := hτ.unmanned
  generalize τ.session.stance = v' at hstride huninit hanon ⊢
  rcases hstride.identity with ⟨hcfg, hid⟩ | ⟨hl, id, inherited, hi, rfl⟩
  · refine h.turns hcfg hid ht.own (fun hcl => ?_) fun hf => ?_
    · rcases hcl with hl | ⟨hi, hun⟩
      · -- a session that is still new has no identity
        refine Or.inr fun id hsome => ?_
        rw [← hid, (hanon (huninit hl)).1] at hsome
        cases hsome
      · rcases hstride.unstarted hi hun with hclear | hf | ⟨hfin, heq⟩
        · exact Or.inl hclear
        · obtain ⟨id, hid, hn⟩ := h.fatal hf
          refine Or.inr fun id' hid' => ?_
          rwa [← Option.some.inj (hid.symm.trans hid')]
        · exact Or.inr (h.heard hfin (Or.inl (hanswer _ heq)))
    · exact (hstride.fatal hf).imp_right fun ⟨hfin, hne, err, heq, hfence⟩ =>
        ⟨⟨hfin, Or.inr ⟨err, hanswer _ heq, hfence⟩⟩, hne⟩
  · obtain ⟨hidentity, hidle⟩ := hc.unmanned (hc.fresh hl)
    have hcalm : σ.session.stance.fatal = false := by
      by_contra hf
      obtain ⟨id', hid', -⟩ := h.fatal (by simpa using hf)
      cases hidentity.symm.trans hid'
    rw [hidle]
    -- an identity that was given out is new, and one that was resumed is inherited
    rcases hi with ⟨he, rfl⟩ | ⟨rfl, op, he, hr⟩
    · have hh : σ.session.stance.Holds σ.own id := Or.inr (hanswer _ he)
      exact .acquired rfl rfl ht.own (h.native id hh) (fun _ => h.clear (Or.inl hl) id hh) hcalm
    · refine .acquired rfl rfl ht.own (hresume op id he hr) (fun hcl => ?_) hcalm
      rcases hcl with hcl | ⟨hcl, -⟩ <;> cases hcl

/-- **Every step keeps what is known of the session's transactions.** -/
theorem Sealed.step (h : σ.Sealed) (hsi : σ.Silent) (he : σ.Enlisted) (hco : σ.Concluded) (hc : σ.Coupled)
    (hτ : τ.Coupled) (hs : σ.Step a τ) (ha : σ.Sole a) : τ.Sealed := by
  have hsound := he.accounted.coordinator
  cases hs with
  | same => exact h
  | others op =>
    exact h.mono fun x id hh => Broker.underWay_of_ne hsound fun now ps hop =>
      ha id hh now _ hop x ⟨rfl, rfl⟩
  | reachOwn now lost q hq => exact h.reachOwn hc hsound hq now ha
  | reachWork now lost q hq => exact h.reachWork hsi hc hco hsound hq now ha
  | refuseOwn e q hq =>
    exact h.on_own (fun id hid => nomatch hid) fun _ hl =>
      absurd (hl.resolve_left fun h => nomatch h) (not_fences_of_retriable ha)
  | refuseWork e q hq =>
    exact h.on_work fun hl =>
      absurd (hl.resolve_left fun h => nomatch h) (not_fences_of_retriable ha)
  | turn a e τ hcall hanswer ht =>
    refine h.turn hc hτ (fun op id heq hr => ?_) hanswer ht
    rw [hcall op heq] at ha
    exact ha id hr
  | moved a w w₀ w' barrier loads acked err q fatal started s' hw hsrc hn hfatal hst hen hv =>
    have hid := (hc.manned w hw).identity
    show FencedLog.Sealed _ s'.stance _ _
    rw [hv]
    refine h.goes rfl rfl id (fun hcl => ?_) (fun hf => ?_) fun answer hl => ?_
    · -- who has started stays so
      have hback : started = false → σ.session.stance.started = false := fun hs =>
        Bool.eq_false_iff.mpr fun hst' => Bool.eq_false_iff.mp hs (hst hst')
      exact hcl.imp_right (And.imp_right (Or.imp_right (And.imp_right hback)))
    · refine (hfatal.mp hf).imp_right ?_
      rintro ⟨e, rfl, hfence⟩
      cases hsrc with
      | refused loads _ hi hstop hl _ => exact ⟨Or.inr ⟨e, hl, hfence⟩, by simp [hid]⟩
    · cases q <;> cases hl
  | stopped a w s' wait call' hw hwait hcall hv =>
    show FencedLog.Sealed _ s'.stance _ _
    rw [hv]
    have hback : ∀ o back, wait = .finish o back → σ.session.stance.wait = .finish o back := by
      rintro o back rfl
      exact (hwait.resolve_right (by simp)).symm
    refine h.goes rfl rfl (fun ⟨o, back, hf⟩ => ⟨o, back, hback o back hf⟩) (fun hcl => ?_) Or.inl
      fun answer hl => nomatch hl
    have hdown : ∀ lc back, (σ.session.stance.lifecycle = lc ∨ ∃ o, wait = .finish o back) →
        σ.session.stance.lifecycle = lc ∨ ∃ o, σ.session.stance.wait = .finish o back :=
      fun lc back => Or.imp_right fun ⟨o, hf⟩ => ⟨o, hback o back hf⟩
    exact hcl.imp_right (And.imp_right (Or.imp (hdown _ _) (And.imp_left (hdown _ _))))

end Scene

/-! ### Every scene -/

/-- What holds of every scene in which nobody else uses the session's identity. -/
theorem Reaches.sealed {broker : BrokerConfig} {config : SessionConfig} {σ : Scene}
    (h : Reaches Scene.Sole (.start broker config) σ) : σ.Faithful ∧ σ.Silent ∧ σ.Sealed := by
  have hstart : (Scene.start broker config).Faithful ∧ (Scene.start broker config).Silent ∧
      (Scene.start broker config).Sealed :=
    ⟨Scene.faithful_start .., Scene.silent_start broker config, Scene.sealed_start ..⟩
  refine h.keeps (P := fun ρ => ρ.Faithful ∧ ρ.Silent ∧ ρ.Sealed) hstart
    fun ρ a ⟨hf, hsi, hs⟩ ha => ?_
  obtain ⟨hstep, hc⟩ := hf.coupled.act a
  exact ⟨hf.act ha.fair, hsi.step hf.coupled hstep,
    hs.step hsi hf.enlisted hf.concluded hf.coupled hc hstep ha⟩

namespace Scene

/-- **A session that is ready and has inherited nothing has no transaction
ongoing under its identity**, whichever answers were lost on the way. -/
theorem none_left_open {broker : BrokerConfig} {config : SessionConfig} {σ : Scene}
    (h : Reaches Sole (start broker config) σ) (hl : σ.session.lifecycle = .ready)
    (hi : σ.session.inherited = false) : ∃ id, σ.session.identity = some id ∧
      ∀ x t, σ.chronicle.broker.coordinator.describe x = some t → t.identity = id →
        t.stage ≠ .ongoing := by
  obtain ⟨hf, -, hs⟩ := h.sealed
  have hman := hf.coupled.sane.manned (show σ.session.stance.lifecycle.hasIdentity = true by
    rw [show σ.session.stance.lifecycle = _ from hl]
    rfl)
  obtain ⟨id, hid⟩ := Option.ne_none_iff_exists'.mp hman.2
  have hclear : σ.session.stance.Clear := Or.inr ⟨hi, Or.inl (Or.inl hl)⟩
  refine ⟨id, hid, fun x t hd ht hst => ?_⟩
  have hw : σ.chronicle.broker.coordinator.UnderWay x id := ⟨t, hd, hst, ht⟩
  -- it could only be the session's own
  obtain rfl := hs.native id (Or.inl hid) x hw
  exact hs.clear hclear id (Or.inl hid) hw

/-! ### An answer is lost -/

/-- A session commits a record. The answer to its first request to commit is
lost, and it asks again. -/
def answerLost : List Act := [
  .others (.createTopic "T" 1),
  .call .init, .reach .own .zero none, .hear .own,
  .call .begin, .round 1,
  .call (.send (draftFor 0) ⟨0, .future⟩ 0), .reach .own .zero none, .hear .own,
  .round 1, .reach .work .zero none, .hear .work, .reach .work .zero none, .hear .work,
  .call (.finish .commit), .round 1, .wake, .reach .own .zero (some .connectionClosed), .hear .own,
  .call (.finish .commit), .round 1, .wake, .reach .own .zero none, .hear .own]

theorem admits_answerLost : (start .default settings).Admits Sole answerLost := by
  simp [answerLost, Admits, Sole, Operation.resumed?, BrokerError.isRetriable]

theorem none_left_open_answerLost :
    Reaches Sole (start .default settings) ((start .default settings).run answerLost) ∧
      ((start .default settings).run answerLost).session.lifecycle = .ready ∧
      ((start .default settings).run answerLost).session.inherited = false ∧
      ∃ id, ((start .default settings).run answerLost).session.identity = some id ∧
        ∀ x t, ((start .default settings).run answerLost).chronicle.broker.coordinator.describe x =
          some t → t.identity = id → t.stage ≠ .ongoing := by
  have hreach := Reaches.refl.run admits_answerLost
  have hl : ((start .default settings).run answerLost).session.lifecycle = .ready := by
    decide +kernel
  have hi : ((start .default settings).run answerLost).session.inherited = false := by
    decide +kernel
  exact ⟨hreach, hl, hi, none_left_open hreach hl hi⟩

end Scene

end FencedLog
