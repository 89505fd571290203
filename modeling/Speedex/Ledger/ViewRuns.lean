import Speedex.Ledger.AccountView

set_option autoImplicit false

/- Views of one account that are open at the same time: their calls interleave, and so do the payments that `commit` and
`unwind` make asset by asset. -/
namespace Speedex

open Machine

/-- Where a view stands; `commit` and `unwind` have the entries of `rest` before them. -/
inductive ViewPhase where
  | active
  | committing (rest : AssetAmounts)
  | unwinding (rest : AssetAmounts)

/-- A view with the net of its successful calls, which the code does not keep. -/
structure ViewSession where
  view : UserAccountView
  phase : ViewPhase
  net : AssetID → Int

structure ViewSystem where
  main : UserAccount
  sessions : List ViewSession

inductive ViewAction where
  | openView
  | call (i : Nat) (call : ViewCall) (asset : AssetID)
  | commit (i : Nat)
  | unwind (i : Nat)
  | advance (i : Nat) (asset : AssetID)

namespace ViewSession

def afterCall (session : ViewSession) (call : ViewCall) (main : UserAccount) (asset : AssetID) : ViewSession :=
  let (view, _, status) := call.run session.view main asset
  { session with
    view := view
    net := if status = .success then Function.update session.net asset (session.net asset + call.delta) else session.net }

/-- What a view has added to the account so far. -/
def contribution (session : ViewSession) (asset : AssetID) : Int :=
  match session.phase with
  | .active => (session.view.availableSideEffects.amount asset).toInt
  | .committing rest => session.net asset - (rest.amount asset).toInt
  | .unwinding rest => (rest.amount asset).toInt

/-- What the next payment of an asset adds to the account. -/
def owed (session : ViewSession) (asset : AssetID) : Int :=
  match session.phase with
  | .active => 0
  | .committing rest => (rest.amount asset).toInt
  | .unwinding rest => -(rest.amount asset).toInt

def Sound (session : ViewSession) : Prop := ∀ asset,
  match session.phase with
  | .active => 0 ≤ (session.view.availableBuffer.amount asset).toInt ∧
      (session.view.availableSideEffects.amount asset).toInt ≤ 0 ∧
      session.net asset = (session.view.availableBuffer.amount asset).toInt + (session.view.availableSideEffects.amount asset).toInt
  | .committing rest => 0 ≤ (rest.amount asset).toInt
  | .unwinding rest => (rest.amount asset).toInt ≤ 0

end ViewSession

/-- One step of one of the views. Every payment to the account is atomic. -/
inductive ViewStep : ViewSystem → ViewAction → ViewSystem → Prop where
  | openView (sys : ViewSystem) :
    ViewStep sys .openView { sys with sessions := sys.sessions ++ [⟨.new, .active, fun _ => 0⟩] }
  | call {sys : ViewSystem} {i : Nat} {session : ViewSession} (call : ViewCall) (asset : AssetID)
    (present : sys.sessions[i]? = some session) (active : session.phase = .active) :
    ViewStep sys (.call i call asset) ⟨(call.run session.view sys.main asset).2.1,
      sys.sessions.set i (session.afterCall call sys.main asset)⟩
  | commit {sys : ViewSystem} {i : Nat} {session : ViewSession} (present : sys.sessions[i]? = some session)
    (active : session.phase = .active) :
    ViewStep sys (.commit i) { sys with
      sessions := sys.sessions.set i { session with phase := .committing session.view.availableBuffer } }
  | unwind {sys : ViewSystem} {i : Nat} {session : ViewSession} (present : sys.sessions[i]? = some session)
    (active : session.phase = .active) :
    ViewStep sys (.unwind i) { sys with
      sessions := sys.sessions.set i { session with phase := .unwinding session.view.availableSideEffects } }
  | advanceCommit {sys : ViewSystem} {i : Nat} {session : ViewSession} {rest : AssetAmounts} {asset : AssetID} {v : BitVec 64}
    (present : sys.sessions[i]? = some session) (phase : session.phase = .committing rest) (entry : rest.lookup asset = some v) :
    ViewStep sys (.advance i asset) ⟨sys.main.transferAvailable asset v,
      sys.sessions.set i { session with phase := .committing (rest.erase asset) }⟩
  | advanceUnwind {sys : ViewSystem} {i : Nat} {session : ViewSession} {rest : AssetAmounts} {asset : AssetID} {v : BitVec 64}
    (present : sys.sessions[i]? = some session) (phase : session.phase = .unwinding rest) (entry : rest.lookup asset = some v) :
    ViewStep sys (.advance i asset) ⟨sys.main.transferAvailable asset (-v),
      sys.sessions.set i { session with phase := .unwinding (rest.erase asset) }⟩

/-- The sums that a step forms stay within `int64_t`. -/
def ViewSystem.Fits (sys : ViewSystem) : ViewAction → Prop
  | .call i call asset => ∀ session, sys.sessions[i]? = some session → call.Fits session.view asset
  | .advance i asset => ∀ session, sys.sessions[i]? = some session →
      (sys.main.available asset).toInt + session.owed asset ≤ int64Max
  | _ => True

/-- The states that views reach on an account by steps of a kind. -/
inductive ViewRun (Allowed : ViewSystem → ViewAction → Prop) (main : UserAccount) : ViewSystem → Prop where
  | start : ViewRun Allowed main ⟨main, []⟩
  | step {sys sys' : ViewSystem} {action : ViewAction} (run : ViewRun Allowed main sys) (allowed : Allowed sys action)
    (step : ViewStep sys action sys') : ViewRun Allowed main sys'

/-- The balance of an account is what it was and what the views have added to it. -/
structure ViewSystem.Inv (main : UserAccount) (sys : ViewSystem) : Prop where
  nonneg : ∀ asset, 0 ≤ (sys.main.available asset).toInt
  sound : ∀ session ∈ sys.sessions, session.Sound
  balance : ∀ asset, (sys.main.available asset).toInt =
    (main.available asset).toInt + (sys.sessions.map (fun session => session.contribution asset)).sum

section Steps

variable {main : UserAccount} {sys : ViewSystem} {i : Nat} {session session' : ViewSession}

theorem sum_map_set (f : ViewSession → Int) {sessions : List ViewSession} (present : sessions[i]? = some session) :
    ((sessions.set i session').map f).sum = (sessions.map f).sum + (f session' - f session) := by
  obtain ⟨inside, here⟩ := List.getElem?_eq_some_iff.mp present
  rw [List.map_set, List.sum_set', dif_pos (by rwa [List.length_map]), List.getElem_map, here]
  omega

/-- A view that steps changes the account by the change of its contribution. -/
theorem ViewSystem.Inv.replace (inv : sys.Inv main) (present : sys.sessions[i]? = some session) {main' : UserAccount}
    (nonneg : ∀ asset, 0 ≤ (main'.available asset).toInt) (sound : session'.Sound)
    (balance : ∀ asset, (main'.available asset).toInt =
      (sys.main.available asset).toInt + (session'.contribution asset - session.contribution asset)) :
    ViewSystem.Inv main ⟨main', sys.sessions.set i session'⟩ where
  nonneg := nonneg
  sound other listed := by
    rcases List.mem_or_eq_of_mem_set listed with old | rfl
    · exact inv.sound other old
    · exact sound
  balance asset := by
    rw [sum_map_set _ present, balance, inv.balance asset]
    omega

theorem ViewSystem.Inv.openView (inv : sys.Inv main) :
    ViewSystem.Inv main { sys with sessions := sys.sessions ++ [⟨.new, .active, fun _ => 0⟩] } where
  nonneg := inv.nonneg
  sound session listed := by
    rcases List.mem_append.mp listed with old | new
    · exact inv.sound session old
    · rw [List.mem_singleton.mp new]
      intro asset
      exact ⟨Int.le_refl 0, Int.le_refl 0, rfl⟩
  balance asset := by
    have none : ViewSession.contribution ⟨.new, .active, fun _ => 0⟩ asset = 0 := rfl
    rw [List.map_append, List.sum_append, List.map_singleton, List.sum_singleton, none, Int.add_zero]
    exact inv.balance asset

theorem ViewSystem.Inv.call (inv : sys.Inv main) {call : ViewCall} {asset : AssetID}
    (present : sys.sessions[i]? = some session) (active : session.phase = .active) (fits : call.Fits session.view asset) :
    ViewSystem.Inv main ⟨(call.run session.view sys.main asset).2.1,
      sys.sessions.set i (session.afterCall call sys.main asset)⟩ := by
  have sound := inv.sound session (List.mem_of_getElem? present)
  simp only [ViewSession.Sound, active] at sound
  obtain ⟨view', main', status, ran, outcome⟩ :=
    UserAccountView.call_spec call (inv.nonneg asset) (sound asset).1 fits
  have after : session.afterCall call sys.main asset = ⟨view', .active,
      if status = .success then Function.update session.net asset (session.net asset + call.delta) else session.net⟩ := by
    rw [ViewSession.afterCall, ran, active]
  rw [ran, after]
  rcases outcome with ⟨success, granted⟩ | ⟨failure, refused⟩
  · have taken : call.taken session.view asset = min 0 ((session.view.availableBuffer.amount asset).toInt + call.delta) := rfl
    rw [if_pos success]
    apply inv.replace present
    · intro other
      have here := granted.account other
      have covered := granted.covered
      have before := inv.nonneg other
      show 0 ≤ (main'.available other).toInt
      by_cases same : other = asset
      · rw [if_pos same, same] at here
        rw [same, here]
        exact covered
      · rw [if_neg same] at here
        omega
    · intro other
      have buffer := granted.buffer other
      have sideEffects := granted.sideEffects other
      obtain ⟨stocked, spent, net⟩ := sound other
      by_cases same : other = asset
      · subst same
        have credited : Function.update session.net other (session.net other + call.delta) other =
            session.net other + call.delta := Function.update_self _ _ _
        rw [if_pos rfl] at buffer sideEffects
        show _ ∧ _ ∧ Function.update session.net other _ other = _
        rw [credited]
        exact ⟨by dsimp only; omega, by dsimp only; omega, by dsimp only; omega⟩
      · have kept : Function.update session.net asset (session.net asset + call.delta) other = session.net other :=
          Function.update_of_ne same _ _
        rw [if_neg same] at buffer sideEffects
        show _ ∧ _ ∧ Function.update session.net asset _ other = _
        rw [kept]
        exact ⟨by dsimp only; omega, by dsimp only; omega, by dsimp only; omega⟩
    · intro other
      have account := granted.account other
      have sideEffects := granted.sideEffects other
      simp only [ViewSession.contribution, active]
      omega
  · rw [if_neg failure]
    have same : ∀ {f f' : AssetID → BitVec 64}, Shifted f f' asset 0 → ∀ other, (f' other).toInt = (f other).toInt := by
      intro f f' shifted other
      rw [shifted other, ite_self, Int.add_zero]
    apply inv.replace present
    · intro other
      show 0 ≤ (main'.available other).toInt
      rw [same refused.account]
      exact inv.nonneg other
    · intro other
      have buffer := same refused.buffer other
      have sideEffects := same refused.sideEffects other
      obtain ⟨stocked, spent, net⟩ := sound other
      exact ⟨by dsimp only; omega, by dsimp only; omega, by dsimp only; omega⟩
    · intro other
      have account := same refused.account other
      have sideEffects := same refused.sideEffects other
      simp only [ViewSession.contribution, active]
      omega

/-- An entry that is paid is no longer owed, and no other payment changes. -/
theorem toInt_amount_erase {rest : AssetAmounts} {asset : AssetID} {v : BitVec 64} (entry : rest.lookup asset = some v)
    (other : AssetID) : (AssetAmounts.amount (rest.erase asset) other).toInt =
      (rest.amount other).toInt - if other = asset then v.toInt else 0 := by
  rw [amount_erase]
  by_cases here : other = asset
  · rw [if_pos here, if_pos here, here, AssetAmounts.amount, entry, Option.getD_some, Int.sub_self]
    rfl
  · rw [if_neg here, if_neg here, Int.sub_zero]

theorem amount_of_lookup {rest : AssetAmounts} {asset : AssetID} {v : BitVec 64} (entry : rest.lookup asset = some v) :
    rest.amount asset = v := by
  rw [AssetAmounts.amount, entry, Option.getD_some]

/-- A payment to the account that fits raises the balance of its asset alone. -/
theorem shifted_transferAvailable {asset : AssetID} {v : BitVec 64} (nonneg : 0 ≤ (main.available asset).toInt)
    (positive : 0 ≤ v.toInt) (fits : (main.available asset).toInt + v.toInt ≤ int64Max) :
    Shifted main.available (main.transferAvailable asset v).available asset v.toInt :=
  shifted_of_eq (main.available_transferAvailable asset v) (toInt_add_of_range (by omega) fits)

theorem nonneg_of_shifted {main' : UserAccount} {asset : AssetID} {change : Int}
    (nonneg : ∀ asset, 0 ≤ (main.available asset).toInt) (positive : 0 ≤ change)
    (shifted : Shifted main.available main'.available asset change) (other : AssetID) : 0 ≤ (main'.available other).toInt := by
  have before := nonneg other
  rw [shifted other]
  split <;> omega

theorem ViewSystem.Inv.commit (inv : sys.Inv main) (present : sys.sessions[i]? = some session)
    (active : session.phase = .active) : ViewSystem.Inv main { sys with
      sessions := sys.sessions.set i { session with phase := .committing session.view.availableBuffer } } := by
  have sound := inv.sound session (List.mem_of_getElem? present)
  simp only [ViewSession.Sound, active] at sound
  apply inv.replace present inv.nonneg
  · exact fun asset => (sound asset).1
  · intro asset
    obtain ⟨_, _, net⟩ := sound asset
    simp only [ViewSession.contribution, active]
    omega

theorem ViewSystem.Inv.unwind (inv : sys.Inv main) (present : sys.sessions[i]? = some session)
    (active : session.phase = .active) : ViewSystem.Inv main { sys with
      sessions := sys.sessions.set i { session with phase := .unwinding session.view.availableSideEffects } } := by
  have sound := inv.sound session (List.mem_of_getElem? present)
  simp only [ViewSession.Sound, active] at sound
  apply inv.replace present inv.nonneg
  · exact fun asset => (sound asset).2.1
  · intro asset
    simp only [ViewSession.contribution, active]
    omega

theorem ViewSystem.Inv.advanceCommit (inv : sys.Inv main) (present : sys.sessions[i]? = some session) {rest : AssetAmounts}
    {asset : AssetID} {v : BitVec 64} (phase : session.phase = .committing rest) (entry : rest.lookup asset = some v)
    (fits : (sys.main.available asset).toInt + session.owed asset ≤ int64Max) :
    ViewSystem.Inv main ⟨sys.main.transferAvailable asset v,
      sys.sessions.set i { session with phase := .committing (rest.erase asset) }⟩ := by
  have sound := inv.sound session (List.mem_of_getElem? present)
  simp only [ViewSession.Sound, phase] at sound
  simp only [ViewSession.owed, phase, amount_of_lookup entry] at fits
  have positive : 0 ≤ v.toInt := amount_of_lookup entry ▸ sound asset
  have paid := shifted_transferAvailable (inv.nonneg asset) positive fits
  apply inv.replace present (nonneg_of_shifted inv.nonneg positive paid)
  · intro other
    show 0 ≤ (AssetAmounts.amount (rest.erase asset) other).toInt
    rw [amount_erase]
    split
    · exact Int.le_refl 0
    · exact sound other
  · intro other
    rw [paid other]
    simp only [ViewSession.contribution, phase, toInt_amount_erase entry]
    omega

theorem ViewSystem.Inv.advanceUnwind (inv : sys.Inv main) (present : sys.sessions[i]? = some session) {rest : AssetAmounts}
    {asset : AssetID} {v : BitVec 64} (phase : session.phase = .unwinding rest) (entry : rest.lookup asset = some v)
    (fits : (sys.main.available asset).toInt + session.owed asset ≤ int64Max) :
    ViewSystem.Inv main ⟨sys.main.transferAvailable asset (-v),
      sys.sessions.set i { session with phase := .unwinding (rest.erase asset) }⟩ := by
  have sound := inv.sound session (List.mem_of_getElem? present)
  have nonneg := inv.nonneg asset
  simp only [ViewSession.Sound, phase] at sound
  simp only [ViewSession.owed, phase, amount_of_lookup entry, int64Max] at fits
  have negative : v.toInt ≤ 0 := amount_of_lookup entry ▸ sound asset
  have back : (-v).toInt = -v.toInt := BitVec.toInt_neg_of_ne_intMin (fun least => by
    have word := congrArg BitVec.toInt least
    rw [BitVec.toInt_intMin] at word
    omega)
  have paid := shifted_transferAvailable (v := -v) nonneg (by omega) (by rw [back, int64Max]; omega)
  apply inv.replace present (nonneg_of_shifted inv.nonneg (by omega) paid)
  · intro other
    show (AssetAmounts.amount (rest.erase asset) other).toInt ≤ 0
    rw [amount_erase]
    split
    · exact Int.le_refl 0
    · exact sound other
  · intro other
    rw [paid other, back]
    simp only [ViewSession.contribution, phase, toInt_amount_erase entry]
    split <;> omega

/-- A step whose sums fit keeps the invariant. -/
theorem ViewSystem.Inv.step (inv : sys.Inv main) {action : ViewAction} {sys' : ViewSystem} (fits : sys.Fits action)
    (step : ViewStep sys action sys') : sys'.Inv main := by
  cases step with
  | openView => exact inv.openView
  | call call asset present active => exact inv.call present active (fits _ present)
  | commit present active => exact inv.commit present active
  | unwind present active => exact inv.unwind present active
  | advanceCommit present phase entry => exact inv.advanceCommit present phase entry (fits _ present)
  | advanceUnwind present phase entry => exact inv.advanceUnwind present phase entry (fits _ present)

theorem ViewRun.inv (nonneg : ∀ asset, 0 ≤ (main.available asset).toInt) (run : ViewRun ViewSystem.Fits main sys) :
    sys.Inv main := by
  induction run with
  | start => exact ⟨nonneg, fun _ absurd => (List.not_mem_nil absurd).elim, fun asset => (Int.add_zero _).symm⟩
  | step _ fits step ih => exact ih.step fits step

end Steps

section Balance

variable {main : UserAccount} {sys : ViewSystem}

/-- The running balance that a view sees, `lookup_available_balance`. -/
def ViewSession.running (session : ViewSession) (main : UserAccount) (asset : AssetID) : Int :=
  (main.available asset).toInt + (session.view.availableBuffer.amount asset).toInt

theorem sum_map_eraseIdx (f : ViewSession → Int) {sessions : List ViewSession} {i : Nat} {session : ViewSession}
    (present : sessions[i]? = some session) : (sessions.map f).sum = f session + ((sessions.eraseIdx i).map f).sum := by
  induction sessions generalizing i with
  | nil => cases present
  | cons s sessions ih =>
    cases i with
    | zero =>
      obtain rfl : s = session := Option.some.inj present
      rfl
    | succ i =>
      rw [List.map_cons, List.sum_cons, ih (i := i) present, List.eraseIdx_cons_succ, List.map_cons, List.sum_cons]
      omega

/-- An account with nothing of any asset. -/
def emptyHanded : UserAccount := ⟨7, [], [⟨0, 0⟩], [], 0, 0⟩

theorem available_emptyHanded (asset : AssetID) : emptyHanded.available asset = 0 := by
  rw [UserAccount.available]
  cases asset.toNat <;> rfl

theorem emptyHanded_nonneg (asset : AssetID) : 0 ≤ (emptyHanded.available asset).toInt := by
  rw [available_emptyHanded]
  decide

end Balance

end Speedex
