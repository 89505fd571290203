import Speedex.Ledger.Account
import Speedex.Library.Loops

set_option autoImplicit false

/- `AccountCommitment`: what an account commits to in the state trie, and the account that is built from it. -/
namespace Speedex

open Machine

structure AssetCommitment where
  asset : AssetID
  amountAvailable : BitVec 64
deriving DecidableEq, Repr

@[ext] structure AccountCommitment where
  owner : AccountID
  assets : List AssetCommitment
  lastCommittedId : BitVec 64
  pk : PublicKey
deriving DecidableEq, Repr

namespace RevertableAsset

def produceCommitment (asset : AssetID) (a : RevertableAsset) : AssetCommitment := ⟨asset, a.committedAvailable⟩

def tentativeCommitment (asset : AssetID) (a : RevertableAsset) : AssetCommitment := ⟨asset, a.available⟩

/-- `RevertableAsset(amount)`. -/
def ofAmount (amount : BitVec 64) : RevertableAsset := ⟨amount, amount⟩

end RevertableAsset

namespace UserAccount

/-- The loop over the assets of one vector, whose counter is a `uint8_t`. -/
def pushCommitments (assets : List RevertableAsset) (produce : AssetID → RevertableAsset → AssetCommitment) (start : Nat)
    (fuel : Nat) (output : List AssetCommitment) : Option (List AssetCommitment) :=
  countLoop assets.length
    (fun (i : BitVec 8) output => output ++ [produce (BitVec.ofNat 32 (i.toNat + start)) (assets.getD i.toNat default)])
    fuel 0 output

/-- `produce_commitment`; `none` if the fuel does not suffice for its loop. -/
def produceCommitment (account : UserAccount) (fuel : Nat) : Option AccountCommitment := do
  let assets ← pushCommitments account.ownedAssets RevertableAsset.produceCommitment 0 fuel []
  some ⟨account.owner, assets, account.lastCommittedId, account.pk⟩

/-- `tentative_commitment`; `none` if the fuel does not suffice for its loops. -/
def tentativeCommitment (account : UserAccount) (fuel : Nat) : Option AccountCommitment := do
  let assets ← pushCommitments account.ownedAssets RevertableAsset.tentativeCommitment 0 fuel []
  let assets ← pushCommitments account.uncommittedAssets RevertableAsset.tentativeCommitment account.ownedAssets.length
    fuel assets
  some ⟨account.owner, assets, account.lastCommittedId + getSeqNumIncrement account.sequenceNumberVec, account.pk⟩

/-- One asset in the constructor from a commitment: gaps are filled with assets of amount zero. -/
def restoreAsset (ownedAssets : List RevertableAsset) (entry : AssetCommitment) : Except String (List RevertableAsset) :=
  if entry.asset.toNat < ownedAssets.length then .error "assets in commitment should be sorted"
  else .ok (growTo ownedAssets entry.asset.toNat ++ [.ofAmount entry.amountAvailable])

/-- `UserAccount(const AccountCommitment&)`. -/
def ofCommitment (commitment : AccountCommitment) : Except String UserAccount := do
  let ownedAssets ← commitment.assets.foldlM restoreAsset []
  .ok ⟨commitment.owner, commitment.pk, ownedAssets, [], 0, commitment.lastCommittedId⟩

/-- The commitments of consecutive assets. -/
def listCommitments (assets : List RevertableAsset) (produce : AssetID → RevertableAsset → AssetCommitment) (start : Nat) :
    List AssetCommitment := assets.mapIdx (fun i a => produce (BitVec.ofNat 32 (i + start)) a)

theorem mapIdx_map {α β γ : Type} (f : Nat → β → γ) (g : α → β) (l : List α) :
    (l.map g).mapIdx f = l.mapIdx (fun i a => f i (g a)) := by
  apply List.ext_getElem
  · simp
  · simp

theorem pushCommitments_eq_some_iff {assets : List RevertableAsset} {produce : AssetID → RevertableAsset → AssetCommitment}
    {start fuel : Nat} {output result : List AssetCommitment} :
    pushCommitments assets produce start fuel output = some result ↔
      assets.length < 256 ∧ assets.length < fuel ∧ result = output ++ listCommitments assets produce start := by
  rw [pushCommitments, countLoop_eq_some_iff, List.foldl_append_eq_append, ← List.flatMap_def,
    ← List.map_eq_flatMap]
  apply and_congr_right
  intro narrow
  have listed : (List.range assets.length).map (fun i => produce (BitVec.ofNat 32 ((BitVec.ofNat 8 i).toNat + start))
      (assets.getD (BitVec.ofNat 8 i).toNat default)) = listCommitments assets produce start := by
    apply List.ext_getElem
    · simp [listCommitments]
    · intro i inside inside'
      rw [List.length_map, List.length_range] at inside
      have small : i % 256 = i := Nat.mod_eq_of_lt (by omega)
      simp [listCommitments, small, inside]
  rw [listed]

theorem produceCommitment_eq_some_iff {account : UserAccount} {fuel : Nat} {commitment : AccountCommitment} :
    account.produceCommitment fuel = some commitment ↔
      account.ownedAssets.length < 256 ∧ account.ownedAssets.length < fuel ∧
        commitment = ⟨account.owner, listCommitments account.ownedAssets RevertableAsset.produceCommitment 0,
          account.lastCommittedId, account.pk⟩ := by
  rw [produceCommitment, Option.bind_eq_bind, Option.bind_eq_some_iff]
  simp only [pushCommitments_eq_some_iff, List.nil_append, Option.some.injEq]
  constructor
  · rintro ⟨assets, ⟨narrow, enough, rfl⟩, rfl⟩
    exact ⟨narrow, enough, rfl⟩
  · rintro ⟨narrow, enough, rfl⟩
    exact ⟨_, ⟨narrow, enough, rfl⟩, rfl⟩

theorem tentativeCommitment_eq_some_iff {account : UserAccount} {fuel : Nat} {commitment : AccountCommitment} :
    account.tentativeCommitment fuel = some commitment ↔
      account.ownedAssets.length < 256 ∧ account.uncommittedAssets.length < 256 ∧
        account.ownedAssets.length < fuel ∧ account.uncommittedAssets.length < fuel ∧
        commitment = ⟨account.owner, listCommitments account.ownedAssets RevertableAsset.tentativeCommitment 0 ++
          listCommitments account.uncommittedAssets RevertableAsset.tentativeCommitment account.ownedAssets.length,
          account.lastCommittedId + getSeqNumIncrement account.sequenceNumberVec, account.pk⟩ := by
  rw [tentativeCommitment, Option.bind_eq_bind, Option.bind_eq_some_iff]
  simp only [pushCommitments_eq_some_iff, List.nil_append, Option.bind_eq_some_iff, Option.some.injEq]
  constructor
  · rintro ⟨assets, ⟨narrow, enough, rfl⟩, assets', ⟨narrow', enough', rfl⟩, rfl⟩
    exact ⟨narrow, narrow', enough, enough', rfl⟩
  · rintro ⟨narrow, narrow', enough, enough', rfl⟩
    exact ⟨_, ⟨narrow, enough, rfl⟩, _, ⟨narrow', enough', rfl⟩, rfl⟩

/-- A sorted commitment without gaps restores its assets one by one. -/
theorem restoreAssets_ok (amounts : List (BitVec 64)) (small : amounts.length < 2 ^ 32) :
    (amounts.mapIdx (fun i amount => (⟨BitVec.ofNat 32 i, amount⟩ : AssetCommitment))).foldlM restoreAsset [] =
      .ok (amounts.map RevertableAsset.ofAmount) := by
  induction amounts using List.reverseRecOn with
  | nil => rfl
  | append_singleton amounts amount ih =>
    rw [List.length_append, List.length_singleton] at small
    have index : (BitVec.ofNat 32 amounts.length).toNat = amounts.length := by
      rw [BitVec.toNat_ofNat]
      apply Nat.mod_eq_of_lt
      omega
    rw [List.mapIdx_concat, List.foldlM_append, ih (by omega), List.map_append]
    show restoreAsset (amounts.map RevertableAsset.ofAmount) _ >>= _ = _
    rw [restoreAsset, List.length_map, if_neg (by rw [index]; exact lt_irrefl _), growTo, List.length_map, index, Nat.sub_self,
      List.replicate_zero, List.append_nil]
    rfl

/-- The account that is built from a commitment has the committed amounts, and nothing that was not committed. -/
theorem ofCommitment_ok {account : UserAccount} {fuel : Nat} {commitment : AccountCommitment}
    (done : account.produceCommitment fuel = some commitment) :
    ofCommitment commitment = .ok ⟨account.owner, account.pk,
      account.ownedAssets.map (fun a => .ofAmount a.committedAvailable), [], 0, account.lastCommittedId⟩ := by
  obtain ⟨narrow, -, rfl⟩ := produceCommitment_eq_some_iff.mp done
  have restored := restoreAssets_ok (account.ownedAssets.map RevertableAsset.committedAvailable)
    (by rw [List.length_map]; omega)
  rw [mapIdx_map, List.map_map] at restored
  exact congrArg (· >>= _) restored

/-- What the commitments of an account are for: they terminate, list every committed asset once and in order, restore
the account, and do not change when the account commits. -/
structure CommitmentsAgree (account : UserAccount) : Prop where
  terminates : (∃ fuel commitment, account.produceCommitment fuel = some commitment) ∧
    ∃ fuel commitment, account.tentativeCommitment fuel = some commitment
  lists : ∀ fuel commitment, account.produceCommitment fuel = some commitment →
    commitment.assets = account.ownedAssets.mapIdx (fun i a => ⟨BitVec.ofNat 32 i, a.committedAvailable⟩)
  restores : ∀ fuel commitment, account.produceCommitment fuel = some commitment →
    ∃ restored, ofCommitment commitment = .ok restored ∧
      restored.ownedAssets.map RevertableAsset.committedAvailable =
        account.ownedAssets.map RevertableAsset.committedAvailable ∧
      restored.owner = account.owner ∧ restored.pk = account.pk ∧ restored.lastCommittedId = account.lastCommittedId
  commits : ∃ fuel commitment, account.tentativeCommitment fuel = some commitment ∧
    account.commit.produceCommitment fuel = some commitment

theorem listCommitments_commit (account : UserAccount) :
    listCommitments account.commit.ownedAssets RevertableAsset.produceCommitment 0 =
      listCommitments account.ownedAssets RevertableAsset.tentativeCommitment 0 ++
        listCommitments account.uncommittedAssets RevertableAsset.tentativeCommitment account.ownedAssets.length := by
  rw [commit, listCommitments, listCommitments, listCommitments, List.mapIdx_append, mapIdx_map, mapIdx_map,
    List.length_map]
  rfl

/-- The commitments of an account agree exactly while its asset slots can be counted in a byte. -/
theorem commitmentsAgree_iff (account : UserAccount) :
    account.CommitmentsAgree ↔ account.ownedAssets.length + account.uncommittedAssets.length ≤ 255 := by
  constructor
  · intro agree
    obtain ⟨fuel, commitment, -, done⟩ := agree.commits
    have narrow := (produceCommitment_eq_some_iff.mp done).1
    rw [commit, List.length_append, List.length_map, List.length_map] at narrow
    omega
  · intro narrow
    have lists : ∀ fuel commitment, account.produceCommitment fuel = some commitment →
        commitment.assets = account.ownedAssets.mapIdx (fun i a => ⟨BitVec.ofNat 32 i, a.committedAvailable⟩) := by
      intro fuel commitment done
      rw [(produceCommitment_eq_some_iff.mp done).2.2]
      rfl
    refine ⟨⟨⟨256, _, produceCommitment_eq_some_iff.mpr ⟨by omega, by omega, rfl⟩⟩,
      ⟨256, _, tentativeCommitment_eq_some_iff.mpr ⟨by omega, by omega, by omega, by omega, rfl⟩⟩⟩, lists, ?_, ?_⟩
    · intro fuel commitment done
      refine ⟨_, ofCommitment_ok done, ?_, rfl, rfl, rfl⟩
      rw [List.map_map]
      rfl
    · refine ⟨256, _, tentativeCommitment_eq_some_iff.mpr ⟨by omega, by omega, by omega, by omega, rfl⟩, ?_⟩
      rw [produceCommitment_eq_some_iff, listCommitments_commit, commit, List.length_append, List.length_map, List.length_map]
      exact ⟨by omega, by omega, rfl⟩

/-- With a slot for each of the 256 assets `produce_commitment` does not return. -/
theorem produceCommitment_never_returns : ∃ account : UserAccount, account.ownedAssets.length = 256 ∧
    account.uncommittedAssets = [] ∧ (∀ fuel, account.produceCommitment fuel = none) ∧ ¬ account.CommitmentsAgree := by
  have none : ∀ fuel, (⟨0, [], List.replicate 256 default, [], 0, 0⟩ : UserAccount).produceCommitment fuel = none := by
    intro fuel
    rw [produceCommitment, pushCommitments, countLoop_wraps (by rw [List.length_replicate]; decide)]
    rfl
  refine ⟨_, List.length_replicate, rfl, none, fun agree => ?_⟩
  obtain ⟨⟨fuel, commitment, done⟩, -⟩ := agree.terminates
  rw [none] at done
  cases done

end UserAccount

end Speedex
