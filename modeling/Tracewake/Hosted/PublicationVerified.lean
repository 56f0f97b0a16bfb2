import Tracewake.Hosted.Commits
import Tracewake.Hosted.Reconcile

/-!
# Publication

Sending a notification and acknowledging it only record that it was sent, so the
outbox keeps what it announces however often a notification is sent.
-/

namespace Tracewake.Hosted

open ReadCommitted

variable {p : Policy} {s : Service} {σ₀ σ σ' : Session} {w w' : World}

/-- A notification that announces what it announced before. -/
def SameNotification (old new : Option OutboxRow) : Prop :=
  new = old ∨ ∃ sent sent', old = some sent ∧ new = some sent' ∧ sent'.payload = sent.payload ∧
    sent'.createdAt = sent.createdAt

/-- Marking a notification leaves its payload and the time of its creation. -/
theorem SameNotification.set {old : Option OutboxRow} {sent sent' : OutboxRow}
    (h : SameNotification old (some sent)) (hpayload : sent'.payload = sent.payload)
    (hcreated : sent'.createdAt = sent.createdAt) : SameNotification old (some sent') := by
  rcases h with rfl | ⟨first, _, rfl, hsent, hpayload₁, hcreated₁⟩
  · exact .inr ⟨sent, sent', rfl, rfl, hpayload, hcreated⟩
  · obtain rfl := Option.some.inj hsent
    exact .inr ⟨first, sent', rfl, rfl, hpayload.trans hpayload₁, hcreated.trans hcreated₁⟩

/-- Notifications may be marked as sent. -/
def sentFootprint : Footprint Row where
  Allows
    | .outbox _ _, old, new => SameNotification old new
    | _, old, new => new = old
  refl key row := by
    cases key with
    | outbox job version => exact .inl rfl
    | _ => rfl

/-- A notification is marked as sent. -/
theorem Working.writeSent (h : Working sentFootprint σ₀ σ w) {job : Uuid} {version : ℤ}
    {sent sent' : OutboxRow} (hlocked : σ.locks (.outbox job version) = some .exclusive)
    (hsent : (σ.after w).outbox job version = some sent) (hpayload : sent'.payload = sent.payload)
    (hcreated : sent'.createdAt = sent.createdAt) :
    Working sentFootprint σ₀ (σ.write (.outbox job version) (some sent')) w := by
  refine h.write hlocked ?_
  have hsame : SameNotification (w.rows.outbox job version) ((σ.after w).outbox job version) :=
    h.keeps.allows (.outbox job version)
  rw [hsent] at hsame
  exact hsame.set hpayload hcreated

/-- A commit that only marks notifications as sent. -/
theorem Working.guarantee_sent {reply : Reply} (h : Working sentFootprint σ₀ σ w)
    (heffect : Effect p s σ reply w) : Guarantee p s σ reply w where
  toJobGuarantee := .unchanged fun job => JobView.ext (h.keeps.allows (.job job))
    (funext fun n => h.keeps.allows (.attempt job n))
    (funext fun kind => h.keeps.allows (.artifact job kind)) (h.keeps.allows (.progress job))
  toRunGuarantee := .unchanged fun run => h.keeps.allows (.run run)
  toInputGuarantee :=
    .unchanged (fun i => h.keeps.allows (.input i)) fun _ _ => h.keeps.allows (.inputDigest _ _)
  outboxKept := by
    intro job version sent hsent
    rcases h.keeps.allows (.outbox job version) with hsame | ⟨sent₁, sent', hold, hnew, hkept⟩
    · exact .inl ⟨sent, hsame.trans hsent, rfl, rfl⟩
    · obtain rfl := Option.some.inj (hold.symm.trans hsent)
      exact .inl ⟨sent', hnew, hkept⟩
  outboxNew := by
    intro job version sent hnone hsome
    rcases h.keeps.allows (.outbox job version) with hsame | ⟨_, _, hold, _⟩
    · have := hsome.symm.trans (hsame.trans hnone)
      cases this
    · have := hold.symm.trans hnone
      cases this
  toRecordGuarantee := .unchanged fun _ _ => h.keeps.allows (.idempotency _ _)
  time := h.now.trans_le h.time
  effect := heffect

/-- Looking for the next notification is verified: it changes nothing. -/
theorem wp_nextNotification :
    (contract p s).wp (nextNotification w.clock) (Replies p s .notification)
      (.start .nextNotification w.clock w.store) w := by
  have h₀ := Working.start (F := nothing) .nextNotification w
  unfold nextNotification
  refine Contract.wp_then (Contract.wp_select fun σ' w' hlater _ _ => ?_)
  have h' := h₀.later hlater
  dsimp only
  split
  · exact Contract.wp_fail (.error (h'.call ▸ trivial) (by simp [Err.Ordinary]))
  · refine Contract.wp_pure (.ok fun w'' hrely _ _ => (h'.rely hrely).guarantee ?_)
    rw [Effect, h'.call]
    trivial

/-- Sending one notification. -/
theorem wp_publishOne {now : Timestamp} {accepted : ℕ} {entry : ((_ : Uuid × ℤ) × OutboxRow) × ℕ}
    {post : Except Err Unit → Session → World → Prop} (h : Working sentFootprint σ₀ σ w)
    (hok : ∀ σ' w', Working sentFootprint σ₀ σ' w' → post (.ok ()) σ' w')
    (herror : post (.error (.rejected "publish")) σ w) :
    (contract p s).wp (publishOne now accepted entry) post σ w := by
  unfold publishOne
  refine Contract.wp_then (wp_require (fun _ => ?_) fun _ => herror)
  refine Contract.wp_then (Contract.wp_updateKey ?_ ?_ ?_)
  · exact fun σ' w' hlater _ _ => Contract.wp_pure (hok σ' w' (h.later hlater))
  · exact fun σ₁ w₁ σ' w' hlater₁ _ hlater' _ _ _ _ =>
      Contract.wp_pure (hok σ' w' (h.later (hlater₁.trans hlater')))
  · exact fun σ₁ w₁ σ' w' row hlater₁ _ hlater' _ hlocked hrow _ => Contract.wp_pure (hok _ w'
      ((h.later (hlater₁.trans hlater')).writeSent hlocked hrow rfl rfl))

/-- Publishing notifications is verified: each is marked as sent and stays what it was. -/
theorem wp_publishOutbox {accepted : ℕ} {limit : ℤ} :
    (contract p s).wp (publishOutbox accepted limit w.clock) (Replies p s .count)
      (.start (.publishOutbox accepted limit) w.clock w.store) w := by
  have h₀ := Working.start (F := sentFootprint) (.publishOutbox accepted limit) w
  unfold publishOutbox
  refine Contract.wp_then (Contract.wp_selectSkipLocked
    fun selected σ₁ w₁ σ₂ w₂ hlater₁ _ hlater₂ _ _ _ => ?_)
  have h₂ := h₀.later (hlater₁.trans hlater₂)
  refine Contract.wp_then (Contract.wp_forEach (fun _ σ' w' => Working sentFootprint
    (.start (.publishOutbox accepted limit) w.clock w.store) σ' w') ?_ ?_ h₂)
  · intro done entry rest σ' w' _ h'
    exact wp_publishOne h' (fun _ _ h'' => h'')
      (.error (h'.call ▸ trivial) (by simp [Err.Ordinary]))
  · refine fun σ' w' h' => Contract.wp_pure (.ok fun w'' hrely _ _ =>
      (h'.rely hrely).guarantee_sent ?_)
    rw [Effect, h'.call]
    trivial

/-- Acknowledging a notification is verified: it is marked and stays what it was. -/
theorem wp_acknowledgeNotification {id : ℕ} :
    (contract p s).wp (acknowledgeNotification id w.clock) (Replies p s fun _ => .done)
      (.start (.acknowledgeNotification id) w.clock w.store) w := by
  have h₀ := Working.start (F := sentFootprint) (.acknowledgeNotification id) w
  unfold acknowledgeNotification
  refine Contract.wp_then (Contract.wp_update (fun _ _ σ' w' => Working sentFootprint
    (.start (.acknowledgeNotification id) w.clock w.store) σ' w') ?_ ?_ ?_ ?_ ?_)
  · exact fun σ' w' hlater _ _ => h₀.later hlater
  · exact fun _ _ σ₁ w₁ σ' w' h₁ hlater _ => h₁.later hlater
  · exact fun _ _ _ σ' w' _ _ h' _ _ _ => h'
  · exact fun _ _ key row σ' w' _ _ h' _ hlocked hrow _ => h'.writeSent hlocked hrow rfl rfl
  · refine fun _ updated σ' w' h' => Contract.wp_pure (.ok fun w'' hrely _ _ =>
      (h'.rely hrely).guarantee_sent ?_)
    rw [Effect, h'.call]
    trivial

end Tracewake.Hosted
