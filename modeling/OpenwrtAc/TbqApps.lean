/-
# Shaping by application

`nproto_update` writes the application that a flow is recognised as to `fi->hdr.proto`.
`tbq_filter_packet` classifies a flow by `flow->tuple.proto`, which is the protocol number
of its packets and never changes, and keeps the mask as long as that is the number it has
kept with it.
-/
import OpenwrtAc.TbqSafety
import OpenwrtAc.TbqTracks

open Outcome MachineInt

namespace Tbq

/-! ## The two modules -/

/-- `nproto_update`, apart from the hooks that it calls first: `hdr.proto` afterwards. -/
def nprotoUpdate (proto ruleId : ℕ) : ℕ := if proto ≠ ruleId then ruleId else proto

/-- The scheduler, and `fi->hdr.proto` of every flow. -/
structure World where
  s : State
  hdrProto : FlowId → ℕ

/-- The states of a run in which every flow has the protocol number `proto f`: packets reach
the filter, flows are recognised, and the scheduler goes on in between. -/
inductive World.Reached (proto : FlowId → ℕ) (cfg : Config) (now : ℕ) : World → Prop
  | init : World.Reached proto cfg now ⟨initState cfg now, fun _ => 0⟩
  /-- A flow is recognised. -/
  | update {w : World} (f : FlowId) (ruleId : ℕ) : World.Reached proto cfg now w →
      World.Reached proto cfg now
        { w with hdrProto := Function.update w.hdrProto f (nprotoUpdate (w.hdrProto f) ruleId) }
  /-- A packet of the flow `f` reaches the filter. -/
  | packet {w : World} {fuel : ℕ} {s' : State} {f : FlowId} {d : Dir} {len : SkbLen}
      {allocOk : Bool} : World.Reached proto cfg now w →
      step fuel w.s (.filter f d (proto f) len allocOk) = .ok s' →
      World.Reached proto cfg now { w with s := s' }
  /-- Any other event. -/
  | other {w : World} {fuel : ℕ} {s' : State} {e : Event} : World.Reached proto cfg now w →
      (∀ f d app len allocOk, e ≠ .filter f d app len allocOk) → step fuel w.s e = .ok s' →
      World.Reached proto cfg now { w with s := s' }

/-! ## The cached mask -/

/-- The mask of a flow of the user `u` with the protocol number `proto`: a track starts
with the number 0, and is not classified for it. -/
def maskFor (cfg : Config) (proto : ℕ) (u : UserId) : RuleMask :=
  if proto = 0 then 0#32 else appMatch cfg proto (userMatch cfg u)

/-- A flow has the mask of its protocol number, or none yet. -/
structure AppsCached (cfg : Config) (proto : FlowId → ℕ) (s : State) : Prop where
  cfg_eq : s.cfg = cfg
  userMask : ∀ u ∈ s.q.users, s.q.userMask u = userMatch cfg u
  flow : ∀ f, ((s.q.flow f).appId = 0 ∧ (s.q.flow f).ruleMask = 0#32)
    ∨ ((s.q.flow f).appId = proto f ∧ (s.q.flow f).ruleMask = maskFor cfg (proto f) f.user)

namespace AppsCached

variable {cfg : Config} {proto : FlowId → ℕ} {s s' : State}

theorem sameTracks (h : AppsCached cfg proto s) (hs : SameTracks s s') :
    AppsCached cfg proto s' := by
  have hflow : s'.q.flow = s.q.flow := congrArg Tracks.flow hs.tracks
  have husers : s'.q.users = s.q.users := congrArg Tracks.users hs.tracks
  have hmask : s'.q.userMask = s.q.userMask := congrArg Tracks.userMask hs.tracks
  refine ⟨hs.cfg.trans h.cfg_eq, fun u hu => ?_, fun f => ?_⟩
  · rw [hmask]
    exact h.userMask u (husers ▸ hu)
  · rw [hflow]
    exact h.flow f

theorem initState (cfg : Config) (proto : FlowId → ℕ) (now : ℕ) :
    AppsCached cfg proto (Tbq.initState cfg now) :=
  ⟨rfl, fun u hu => (by cases hu), fun f => .inl ⟨rfl, rfl⟩⟩

theorem trackInit (h : AppsCached cfg proto s) (f : FlowId) :
    AppsCached cfg proto { s with q := if f ∈ s.q.flows then s.q else flowTrackInit s.q f } := by
  split
  · exact h
  · refine ⟨h.cfg_eq, h.userMask, fun g => ?_⟩
    change ((Function.update s.q.flow f ⟨0, 0#32, fun _ => 0⟩) g).appId = 0 ∧ _ ∨ _
    by_cases hg : g = f
    · subst hg
      exact .inl (by simp [flowTrackInit])
    · have hold := h.flow g
      simp only [flowTrackInit, Function.update_of_ne hg]
      exact hold

/-- A flow of a tracked user is classified once. -/
theorem classify (h : AppsCached cfg proto s) {f : FlowId} (hu : f.user ∈ s.q.users) :
    (Tbq.classify s.cfg s.q f (proto f)).appId = proto f
      ∧ (Tbq.classify s.cfg s.q f (proto f)).ruleMask = maskFor cfg (proto f) f.user := by
  unfold Tbq.classify
  by_cases happ : (s.q.flow f).appId = proto f
  · dsimp only
    rw [if_neg (not_not.mpr happ)]
    refine ⟨happ, ?_⟩
    rcases h.flow f with ⟨h0, hmask⟩ | ⟨-, hmask⟩
    · rw [hmask, maskFor, if_pos (happ.symm.trans h0)]
    · exact hmask
  · dsimp only
    rw [if_pos happ]
    have hne : proto f ≠ 0 := by
      rcases h.flow f with ⟨h0, -⟩ | ⟨hsame, -⟩
      · exact fun hzero => happ (h0.trans hzero.symm)
      · exact absurd hsame happ
    refine ⟨rfl, ?_⟩
    rw [maskFor, if_neg hne, ← h.userMask _ hu, h.cfg_eq]

/-- The first half of the filter: the flow gets the mask of its protocol number. -/
theorem track (h : AppsCached cfg proto s) {f : FlowId} {allocOk : Bool}
    (hrun : Tbq.track s f (proto f) allocOk = .ok (some s')) :
    AppsCached cfg proto s' ∧ s'.q.userMask f.user = userMatch cfg f.user
      ∧ (s'.q.flow f).ruleMask = maskFor cfg (proto f) f.user := by
  unfold Tbq.track at hrun
  split at hrun
  · cases hrun
  · obtain ⟨s₁, h₁, hrun⟩ := bind_eq_ok.mp hrun
    have huser : AppsCached cfg proto s₁ ∧ f.user ∈ s₁.q.users := by
      split at h₁
      · rename_i hu
        cases h₁
        exact ⟨h, hu⟩
      · obtain ⟨_, -, h₁⟩ := bind_eq_ok.mp h₁
        cases h₁
        refine ⟨⟨h.cfg_eq, fun u hu => ?_, h.flow⟩, List.mem_append_right _ (List.mem_singleton.mpr rfl)⟩
        change Function.update s.q.userMask f.user (userMatch s.cfg f.user) u = _
        by_cases huf : u = f.user
        · subst huf
          rw [Function.update_self, h.cfg_eq]
        · rw [Function.update_of_ne huf]
          refine h.userMask u ?_
          rcases List.mem_append.mp hu with hu | hu
          · exact hu
          · exact absurd (List.mem_singleton.mp hu) huf
    -- the user is known by now; the flow is made new if it is not, and then classified
    cases hrun
    have hinit := huser.1.trackInit f
    set q := if f ∈ s₁.q.flows then s₁.q else flowTrackInit s₁.q f with hq
    have husers : q.users = s₁.q.users := by
      rw [hq]
      split <;> rfl
    have hclass := hinit.classify (f := f) (husers ▸ huser.2)
    refine ⟨⟨hinit.cfg_eq, hinit.userMask, fun g => ?_⟩, ?_, ?_⟩
    · by_cases hg : g = f
      · subst hg
        simp only [Function.update_self]
        exact .inr hclass
      · simp only [Function.update_of_ne hg]
        exact hinit.flow g
    · exact hinit.userMask _ (husers ▸ huser.2)
    · simp only [Function.update_self]
      exact hclass.2

theorem filterPacket (h : AppsCached cfg proto s) {f : FlowId} {d : Dir} {len : SkbLen}
    {allocOk : Bool} {v : Verdict}
    (hrun : Tbq.filterPacket s f d (proto f) len allocOk = .ok (v, s')) :
    AppsCached cfg proto s' := by
  unfold Tbq.filterPacket at hrun
  obtain ⟨o, ho, hrun⟩ := bind_eq_ok.mp hrun
  cases o with
  | none =>
      cases hrun
      exact h
  | some s₁ =>
      have h₁ := (h.track ho).1
      dsimp only at hrun
      split at hrun
      · cases hrun
        exact h₁
      · obtain ⟨⟨wait, s₂⟩, h₂, hrun⟩ := bind_eq_ok.mp hrun
        have hsame : SameTracks s₁ s₂ := by
          obtain ⟨e, -, h₂⟩ := bind_eq_ok.mp h₂
          split at h₂
          · obtain ⟨c, -, h₂⟩ := bind_eq_ok.mp h₂
            cases h₂
            exact ⟨rfl, rfl⟩
          · cases h₂
            exact .refl _
        have hcached := h₁.sameTracks hsame
        dsimp only at hrun
        split at hrun
        · cases hrun
          exact hcached
        · split at hrun
          · cases hrun
            exact hcached
          · cases hrun
            exact hcached.sameTracks ⟨rfl, rfl⟩

/-- A user that is freed leaves the flows their masks, and a flow that is freed loses its. -/
theorem step (h : AppsCached cfg proto s) {fuel : ℕ} {e : Event}
    (he : ∀ f d app len allocOk, e ≠ .filter f d app len allocOk)
    (hs : Tbq.step fuel s e = .ok s') : AppsCached cfg proto s' := by
  cases e with
  | filter f d app len allocOk => exact absurd rfl (he f d app len allocOk)
  | enqueue p =>
      obtain ⟨⟨v, s₁⟩, h₁, hs⟩ := bind_eq_ok.mp hs
      cases hs
      have hland : SameTracks (s.land p) s' := sameTracks_enqueue h₁
      exact h.sameTracks ⟨hland.tracks, hland.cfg⟩
  | elapse n =>
      cases hs
      exact h.sameTracks ⟨rfl, rfl⟩
  | tick order => exact h.sameTracks (sameTracks_timerFunc hs)
  | userFree u =>
      obtain rfl | ⟨hq, hc⟩ := onUserFree_ok hs
      · exact h
      · -- the user that is freed leaves the list, so nothing is asked of its mask
        have herased : AppsCached cfg proto { s with q := { s.q with users := s.q.users.erase u } } :=
          ⟨h.cfg_eq, fun v hv => h.userMask v (List.mem_of_mem_erase hv), h.flow⟩
        exact herased.sameTracks ⟨by rw [hq], hc⟩
  | flowFree f =>
      obtain rfl | rfl := onFlowFree_ok hs
      · exact h
      · refine ⟨h.cfg_eq, h.userMask, fun g => ?_⟩
        by_cases hg : g = f
        · subst hg
          -- a cleared flow has no application yet
          exact .inl (by simp [flowTrackClear])
        · simp only [flowTrackClear, Function.update_of_ne hg]
          exact h.flow g
  | _ =>
      cases hs
      refine h.sameTracks ?_
      split
      · exact ⟨rfl, rfl⟩
      · exact .refl _

end AppsCached

theorem World.Reached.cached {proto : FlowId → ℕ} {cfg : Config} {now : ℕ} {w : World}
    (h : World.Reached proto cfg now w) : AppsCached cfg proto w.s := by
  induction h with
  | init => exact .initState cfg proto now
  | update _ _ _ ih => exact ih
  | @packet w fuel s' f d len allocOk _ hs ih =>
      change (if w.s.status = .running then _ else _) = _ at hs
      split at hs
      · obtain ⟨⟨v, s₁⟩, h₁, hs⟩ := bind_eq_ok.mp hs
        cases hs
        exact ih.filterPacket h₁
      · cases hs
        exact ih
  | other _ he hs ih => exact ih.step he hs

/-! ## The rules that are charged -/

/-- The application list of rule `i` is empty or contains `app`. -/
def AppListed (cfg : Config) (app : ℕ) (i : RuleIdx) : Prop :=
  ∃ r, cfg.rules[i.val]? = some r ∧ (r.appRules = [] ∨ app ∈ r.appRules)

theorem appMatchWeight_ne_zero {cfg : Config} {app : ℕ} {i : RuleIdx} :
    appMatchWeight cfg app i ≠ 0 ↔ AppListed cfg app i := by
  unfold appMatchWeight AppListed ruleMatchApp
  cases cfg.rules[i.val]? with
  | none => simp
  | some r =>
      by_cases hnil : r.appRules = []
      · simp [hnil]
      · by_cases happ : app ∈ r.appRules <;> simp [hnil, happ]

theorem maskFor_has {cfg : Config} {app : ℕ} {u : UserId} {i : RuleIdx} :
    (maskFor cfg app u).has i = true
      ↔ (userMatch cfg u).has i = true ∧ app ≠ 0 ∧ AppListed cfg app i := by
  unfold maskFor
  split
  · rename_i h
    simp [h]
  · rename_i h
    rw [appMatch_has, appMatchWeight_ne_zero]
    simp [h]

/-- A packet is charged to the user's rules for the application that its flow is recognised
as exactly when each of these rules lists that application and the protocol number of the
flow alike. -/
theorem charged_rules_iff {proto : FlowId → ℕ} {cfg : Config} {now : ℕ} {w : World}
    (h : World.Reached proto cfg now w) {f : FlowId} {d : Dir} {len : SkbLen} {allocOk : Bool}
    {s₁ : State} (hrun : track w.s f (proto f) allocOk = .ok (some s₁)) :
    (∀ i, (packetCtrl s₁ f d len).ruleMask.has i = true
        ↔ (s₁.q.userMask f.user).has i = true ∧ AppListed cfg (w.hdrProto f) i)
      ↔ ∀ i, (userMatch cfg f.user).has i = true →
        ((proto f ≠ 0 ∧ AppListed cfg (proto f) i) ↔ AppListed cfg (w.hdrProto f) i) := by
  obtain ⟨-, huser, hmask⟩ := h.cached.track hrun
  refine forall_congr' fun i => ?_
  change ((s₁.q.flow f).ruleMask.has i = true ↔ _) ↔ _
  rw [hmask, maskFor_has, huser]
  exact and_congr_right_iff

/-- The filter after it has tracked a flow, if that has a property that can be tested. -/
theorem track_of_any {s : State} {f : FlowId} {app : ℕ} {p : State → Bool}
    (h : ((track s f app true).toOption.any fun o => o.any p) = true) :
    ∃ s₁, track s f app true = .ok (some s₁) ∧ p s₁ = true := by
  obtain ⟨o, ho, hp⟩ := ok_of_any h
  cases o with
  | none => cases hp
  | some s₁ => exact ⟨s₁, ho, hp⟩

/-- A rule for the numbers 6 and 42, one without an application list, and one for the number 7. -/
def listConfig : Config where
  HZ := 12
  rules := [[6, 42], [], [7]].map fun l => ⟨[], l, fun _ => ⟨1000, 1000⟩⟩
  maxBacklogPackets := 100
  latencyShift := 7
  hz_ge := slowConfig.hz_ge
  nr_rule_le := by simp
  rate_ok := by
    intro r hr d
    obtain ⟨l, -, rfl⟩ := List.mem_map.mp hr
    have hrate : RateOk 12 1000 := ⟨by decide, by decide⟩
    exact ⟨hrate, hrate⟩
  weight_ok := by
    intro r hr w hw
    obtain ⟨l, -, rfl⟩ := List.mem_map.mp hr
    cases hw
  latency_le := slowConfig.latency_le

/-- A TCP flow that is recognised as the application 42 is charged to the first two rules: the first
lists both numbers, the second is for all, and the third lists neither. -/
theorem charged_rules_listConfig :
    ∃ s₁, track (initState listConfig 0) flowA 6 true = .ok (some s₁)
      ∧ (List.finRange 3).map (fun i => (s₁.q.flow flowA).ruleMask.has (i.castLE (by decide)))
        = [true, true, false]
      ∧ ∀ i, (packetCtrl s₁ flowA 0 ⟨100, by decide⟩).ruleMask.has i = true
        ↔ (s₁.q.userMask flowA.user).has i = true ∧ AppListed listConfig 42 i := by
  obtain ⟨s₁, hs₁, hmask⟩ := track_of_any (s := initState listConfig 0) (f := flowA)
    (p := fun s => decide ((List.finRange 3).map
      (fun i => (s.q.flow flowA).ruleMask.has (i.castLE (by decide))) = [true, true, false]))
    (by decide +kernel : ((track (initState listConfig 0) flowA 6 true).toOption.any _) = true)
  have hrecognised := (World.Reached.init : World.Reached (fun _ => 6) listConfig 0 _).update flowA 42
  have hcharged :=
    (@charged_rules_iff _ _ _ _ hrecognised flowA 0 ⟨100, by decide⟩ true s₁ hs₁).mpr
  simp only [Function.update_self] at hcharged
  refine ⟨s₁, hs₁, of_decide_eq_true hmask, hcharged fun i hi => ?_⟩
  have hlt : i.val < 3 := rule_lt_of_userMatch hi
  show (6 ≠ 0 ∧ AppListed listConfig 6 i) ↔ AppListed listConfig 42 i
  obtain h | h | h : i.val = 0 ∨ i.val = 1 ∨ i.val = 2 := by omega
  all_goals simp [AppListed, listConfig, h]

/-- One rule for the application 42. -/
def appConfig : Config where
  HZ := 12
  rules := [⟨[], [42], fun _ => ⟨1000, 1000⟩⟩]
  maxBacklogPackets := 100
  latencyShift := 7
  hz_ge := slowConfig.hz_ge
  nr_rule_le := by simp
  rate_ok := by
    intro r hr d
    obtain rfl := List.mem_singleton.mp hr
    have hrate : RateOk 12 1000 := ⟨by decide, by decide⟩
    exact ⟨hrate, hrate⟩
  weight_ok := by
    intro r hr w hw
    obtain rfl := List.mem_singleton.mp hr
    cases hw
  latency_le := slowConfig.latency_le

/-- A TCP flow that is recognised as the application 42 is not charged to its rule. -/
theorem charged_rules_missed :
    ¬ ∀ (proto : FlowId → ℕ) (cfg : Config) (now : ℕ) (w : World) (f : FlowId) (d : Dir)
        (len : SkbLen) (allocOk : Bool) (s₁ : State), World.Reached proto cfg now w →
      track w.s f (proto f) allocOk = .ok (some s₁) →
      ∀ i, (packetCtrl s₁ f d len).ruleMask.has i = true
        ↔ (s₁.q.userMask f.user).has i = true ∧ AppListed cfg (w.hdrProto f) i := by
  intro hall
  obtain ⟨s₁, hs₁, hp⟩ := track_of_any (s := initState appConfig 0) (f := flowA)
    (p := fun s => !(s.q.flow flowA).ruleMask.has 0 && (s.q.userMask flowA.user).has 0)
    (by decide +kernel : ((track (initState appConfig 0) flowA 6 true).toOption.any _) = true)
  obtain ⟨hcharged, huser⟩ := (Bool.and_eq_true _ _).mp hp
  have hrecognised := (World.Reached.init : World.Reached (fun _ => 6) appConfig 0 _).update flowA 42
  have hlisted : AppListed appConfig 42 0 := ⟨_, rfl, .inr (List.mem_singleton.mpr rfl)⟩
  have hmask := (hall _ _ _ _ flowA 0 ⟨100, by decide⟩ true s₁ hrecognised hs₁ 0).mpr
    ⟨huser, by simpa [nprotoUpdate] using hlisted⟩
  have hnot : (s₁.q.flow flowA).ruleMask.has 0 = false := by simpa using hcharged
  exact absurd (hnot.symm.trans hmask) Bool.false_ne_true

end Tbq
