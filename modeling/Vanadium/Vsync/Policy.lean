import Vanadium.Vsync.ConflictGroups
import Vanadium.Vsync.Initiator

/-!
# Conflict resolution policies

A schema says by rules which conflicts are resolved by time and which by the application. Of the
rules that apply to a row the most specific one counts, and of equally specific ones the last
(`getResolutionType_most_specific`).

Without a schema all conflicts are resolved by time. A schema that maps all conflicts to
`lastWins` makes no difference as long as the application is connected, and always makes one if it
is not (`resolveConflicts_eq_default_iff`).
-/

namespace Vanadium.Vsync

open Foundations Program List
open EStateM (Result)

/-! ## Rules -/

/-- `wire.Id`. -/
structure Id where
  blessing : ByteString
  name : ByteString
  deriving DecidableEq

inductive ResolverType where
  | lastWins
  | appResolves
  | defer
  deriving DecidableEq

/-- `wire.CrRule`, without the type that no rule is matched by. An empty id names no collection. -/
structure CrRule where
  collectionId : Id
  keyPrefix : ByteString
  resolver : ResolverType
  deriving DecidableEq

def Id.zero : Id := ⟨[], []⟩

/-- `strings.SplitN(s, sep, 2)`, if there are two parts. -/
def cut (sep : Fin 256) (s : ByteString) : Option (ByteString × ByteString) :=
  match s.dropWhile (· ≠ sep) with
  | [] => none
  | _ :: rest => some (s.takeWhile (· ≠ sep), rest)

/-- `DecodeIdKeyPart`: `<blessing>\x00<name>\x00`. -/
def decodeIdKeyPart (idKeyPart : ByteString) : Option Id := do
  let (blessing, rest) ← cut 0 idKeyPart
  let (name, rest) ← cut 0 rest
  if rest = [] then some ⟨blessing, name⟩ else none

/-- `RowPrefix`, the string `"r"`. -/
def rowPrefix : ByteString := [114]

def isRowKey (key : ByteString) : Bool := key.takeWhile (· ≠ keyPartSep) = rowPrefix

def parseRowKey (key : ByteString) : Option (Id × ByteString) := do
  let (pfx, rest) ← cut keyPartSep key
  let (idKeyPart, row) ← cut keyPartSep rest
  if pfx = rowPrefix then (decodeIdKeyPart idKeyPart).map (·, row) else none

/-- `isRuleApplicable`, for a parsed key. A prefix needs a collection. -/
def CrRule.applies (rule : CrRule) (collection : Id) (rowKey : ByteString) : Bool :=
  if rule.collectionId ≠ Id.zero ∧ collection ≠ rule.collectionId then false
  else if rule.keyPrefix ≠ [] ∧ rule.collectionId = Id.zero then false
  else rule.keyPrefix.isPrefixOf rowKey

def isRuleApplicable (oid : Oid) (rule : CrRule) : Except SyncErr Bool :=
  match parseRowKey oid with
  | none => .error (.fatal "ParseRowKey: invalid key")
  | some (collection, rowKey) => .ok (rule.applies collection rowKey)

def isRuleMoreSpecific (rule : CrRule) : Option CrRule → Bool
  | none => true
  | some other =>
    if other.collectionId = Id.zero then true
    else if rule.collectionId ≠ other.collectionId then false
    else other.keyPrefix.isPrefixOf rule.keyPrefix

/-- One iteration of the loop of `getResolutionType`. -/
def selectRule (oid : Oid) (selected : Option CrRule) (rule : CrRule) :
    Except SyncErr (Option CrRule) := do
  let applicable ← isRuleApplicable oid rule
  .ok (if applicable ∧ isRuleMoreSpecific rule selected then some rule else selected)

def getResolutionType (oid : Oid) (rules : List CrRule) : Except SyncErr ResolverType :=
  if isRowKey oid then do
    let selected ← rules.foldlM (selectRule oid) none
    .ok ((selected.map CrRule.resolver).getD .lastWins)
  else .ok .lastWins

/-! ## The most specific rule -/

/-- How specific a rule is: one without a collection least, others by the length of the prefix. -/
def CrRule.specificity (rule : CrRule) : ℕ :=
  if rule.collectionId = Id.zero then 0 else rule.keyPrefix.length + 1

variable {oid : Oid} {collection : Id} {rowKey : ByteString} {rule other : CrRule}
  {rules : List CrRule}

theorem CrRule.applies_iff : rule.applies collection rowKey = true ↔
    (rule.collectionId = Id.zero ∧ rule.keyPrefix = [] ∨
      rule.collectionId ≠ Id.zero ∧ rule.collectionId = collection) ∧
        rule.keyPrefix <+: rowKey := by
  rw [CrRule.applies, ← isPrefixOf_iff_prefix]
  split_ifs with hother hillegal
  · simp [hother.1, Ne.symm hother.2]
  · simp [hillegal.1, hillegal.2]
  · rw [iff_and_self]
    intro
    by_cases h : rule.collectionId = Id.zero
    · exact .inl ⟨h, by_contra fun hpfx ↦ hillegal ⟨hpfx, h⟩⟩
    · exact .inr ⟨h, by_contra fun hne ↦ hother ⟨h, Ne.symm hne⟩⟩

/-- Of two rules that apply to one row, the one with the longer prefix has the other's prefix. -/
theorem isRuleMoreSpecific_iff (h : rule.applies collection rowKey = true)
    (h' : other.applies collection rowKey = true) :
    isRuleMoreSpecific rule (some other) = true ↔ other.specificity ≤ rule.specificity := by
  obtain ⟨hid, hpfx⟩ := CrRule.applies_iff.mp h
  obtain ⟨hid', hpfx'⟩ := CrRule.applies_iff.mp h'
  rw [isRuleMoreSpecific, CrRule.specificity, CrRule.specificity]
  by_cases hz : other.collectionId = Id.zero
  · simp [hz]
  · have hother : other.collectionId = collection := (hid'.resolve_left fun h ↦ hz h.1).2
    rw [if_neg hz, if_neg hz]
    rcases hid with ⟨hzero, -⟩ | ⟨hne, heq⟩
    · rw [if_pos hzero, if_pos (by rw [hzero]; exact Ne.symm hz)]
      simp
    · rw [if_neg hne, if_neg (by rw [heq, hother]; exact not_not.mpr rfl),
        isPrefixOf_iff_prefix, Nat.add_le_add_iff_right]
      exact ⟨List.IsPrefix.length_le, prefix_of_prefix_length_le hpfx' hpfx⟩

/-- The rule that is selected: the last one of the most specific ones that apply. -/
def Selects (oid : Oid) (rules : List CrRule) (rule : CrRule) : Prop :=
  ∃ before after, rules = before ++ rule :: after ∧ isRuleApplicable oid rule = .ok true ∧
    (∀ r ∈ before, isRuleApplicable oid r = .ok true → r.specificity ≤ rule.specificity) ∧
    ∀ r ∈ after, isRuleApplicable oid r = .ok true → r.specificity < rule.specificity

theorem Selects.le (h : Selects oid rules rule) (hmem : other ∈ rules)
    (happ : isRuleApplicable oid other = .ok true) : other.specificity ≤ rule.specificity := by
  obtain ⟨before, after, rfl, -, hbefore, hafter⟩ := h
  rcases mem_append.mp hmem with hmem | hmem
  · exact hbefore other hmem happ
  · rcases mem_cons.mp hmem with rfl | hmem
    · exact le_rfl
    · exact (hafter other hmem happ).le

theorem Selects.append (h : Selects oid rules rule)
    (hlt : isRuleApplicable oid other = .ok true → other.specificity < rule.specificity) :
    Selects oid (rules ++ [other]) rule := by
  obtain ⟨before, after, rfl, happ, hbefore, hafter⟩ := h
  exact ⟨before, after ++ [other], by simp, happ, hbefore,
    forall_mem_append.mpr ⟨hafter, forall_mem_singleton.mpr hlt⟩⟩

theorem Selects.last (happ : isRuleApplicable oid rule = .ok true)
    (hle : ∀ r ∈ rules, isRuleApplicable oid r = .ok true → r.specificity ≤ rule.specificity) :
    Selects oid (rules ++ [rule]) rule :=
  ⟨rules, [], rfl, happ, hle, forall_mem_nil _⟩

theorem foldlM_selectRule (rules : List CrRule)
    (hkey : parseRowKey oid = some (collection, rowKey)) :
    (rules.foldlM (selectRule oid) none = .ok none ∧
      ∀ r ∈ rules, isRuleApplicable oid r ≠ .ok true) ∨
    ∃ rule, rules.foldlM (selectRule oid) none = .ok (some rule) ∧ Selects oid rules rule := by
  have happ (r : CrRule) : isRuleApplicable oid r = .ok (r.applies collection rowKey) := by
    rw [isRuleApplicable, hkey]
  induction rules using reverseRecOn with
  | nil => exact .inl ⟨rfl, forall_mem_nil _⟩
  | append_singleton rules r ih =>
    have hstep {selected : Option CrRule} (h : rules.foldlM (selectRule oid) none = .ok selected) :
        (rules ++ [r]).foldlM (selectRule oid) none = .ok (if r.applies collection rowKey ∧
          isRuleMoreSpecific r selected then some r else selected) := by
      rw [foldlM_append, h]
      simp [selectRule, happ, bind, Except.bind, pure, Except.pure]
    by_cases hr : r.applies collection rowKey = true
    · have hr' : isRuleApplicable oid r = .ok true := by rw [happ, hr]
      rcases ih with ⟨h, hnone⟩ | ⟨rule, h, hsel⟩
      · refine .inr ⟨r, by rw [hstep h, if_pos ⟨hr, rfl⟩], Selects.last hr' ?_⟩
        exact fun r' hmem happ' ↦ absurd happ' (hnone r' hmem)
      · obtain ⟨_, _, _, happlies, _⟩ := id hsel
        have hspecific := isRuleMoreSpecific_iff hr
          (Except.ok.inj ((happ rule).symm.trans happlies))
        by_cases hle : rule.specificity ≤ r.specificity
        · refine .inr ⟨r, by rw [hstep h, if_pos ⟨hr, hspecific.mpr hle⟩], Selects.last hr' ?_⟩
          exact fun r' hmem happ' ↦ (hsel.le hmem happ').trans hle
        · exact .inr ⟨rule, by rw [hstep h, if_neg fun hif ↦ hle (hspecific.mp hif.2)],
            hsel.append fun _ ↦ not_le.mp hle⟩
    · -- the rule does not apply and changes nothing
      have hno : isRuleApplicable oid r ≠ .ok true := by rwa [happ, Ne, Except.ok.injEq]
      have hsame {selected : Option CrRule} (h : rules.foldlM (selectRule oid) none =
        .ok selected) :
          (rules ++ [r]).foldlM (selectRule oid) none = .ok selected := by
        rw [hstep h, if_neg fun hif ↦ hr hif.1]
      rcases ih with ⟨h, hnone⟩ | ⟨rule, h, hsel⟩
      · exact .inl ⟨hsame h, forall_mem_append.mpr ⟨hnone, forall_mem_singleton.mpr hno⟩⟩
      · exact .inr ⟨rule, hsame h, hsel.append fun h ↦ absurd h hno⟩

theorem isRowKey_of_parseRowKey (hkey : parseRowKey oid = some (collection, rowKey)) :
    isRowKey oid = true := by
  simp only [parseRowKey, cut, Option.bind_eq_bind, Option.bind_eq_some_iff, Prod.exists] at hkey
  obtain ⟨pfx, rest, hcut, idKeyPart, row, -, hif⟩ := hkey
  split at hcut <;> cases hcut
  split at hif
  · next hpfx => rw [isRowKey, hpfx, decide_eq_true rfl]
  · cases hif

/-- **The policy of a row** is the one of the last of the most specific rules that apply to it. -/
theorem getResolutionType_most_specific (rules : List CrRule)
    (hkey : parseRowKey oid = some (collection, rowKey)) :
    ((∀ r ∈ rules, isRuleApplicable oid r ≠ .ok true) →
      getResolutionType oid rules = .ok .lastWins) ∧
    ((∃ r ∈ rules, isRuleApplicable oid r = .ok true) →
      ∃ rule, getResolutionType oid rules = .ok rule.resolver ∧ Selects oid rules rule) := by
  rw [getResolutionType, if_pos (isRowKey_of_parseRowKey hkey)]
  rcases foldlM_selectRule rules hkey with ⟨h, hnone⟩ | ⟨rule, h, hsel⟩
  · rw [h]
    refine ⟨fun _ ↦ rfl, ?_⟩
    rintro ⟨r, hr, happ⟩
    exact absurd happ (hnone r hr)
  · rw [h]
    refine ⟨fun hnone ↦ ?_, fun _ ↦ ⟨rule, rfl, hsel⟩⟩
    obtain ⟨before, after, rfl, happ, -⟩ := hsel
    exact absurd happ (hnone rule (by simp))

/-- The row `k` of the collection `(u, c)`. -/
def sampleRow : Oid := [114, 254, 117, 0, 99, 0, 254, 107]

def sampleRules : List CrRule :=
  [⟨⟨[117], [99]⟩, [107], .appResolves⟩, ⟨⟨[117], [99]⟩, [], .lastWins⟩, ⟨Id.zero, [], .defer⟩]

theorem sampleRules_select : ∃ rule : CrRule,
    getResolutionType sampleRow sampleRules = .ok rule.resolver ∧
    Selects sampleRow sampleRules rule := by
  have hkey : parseRowKey sampleRow = some (⟨[117], [99]⟩, [107]) := by decide
  exact (getResolutionType_most_specific sampleRules hkey).2 ⟨_, List.mem_cons_self, by rfl⟩

/-! ## Resolving by policy -/

/-- Why `resolveConflicts` fails: without a connection to the application, or as another function
of the module does. -/
inductive CrErr where
  | brokenCrConnection
  | sync (e : SyncErr)
  deriving DecidableEq

abbrev ResolveM : Type → Type := EStateM CrErr Session

/-- What the connection to the application is used for: the conflicts of a group are sent, and the
resolutions received are processed. -/
abbrev CrConnection : Type := CrGroup → ResolveM Unit

def ofSync (x : SyncM Unit) : ResolveM Unit := fun s ↦
  match x s with
  | .ok a s' => .ok a s'
  | .error e s' => .error (.sync e) s'

def isConflictIn (updObjects : Table Oid ObjConflictState) (oid : Oid) : Bool :=
  ((AList.lookup oid updObjects).map ObjConflictState.isConflict).getD false

/-- The conflicts that `groupConflictsByType` puts under one type. -/
def groupConflictsByType (rules : List CrRule) (ty : ResolverType) :
    List Oid → Except SyncErr (List Oid)
  | [] => .ok []
  | oid :: rest => do
    let crType ← getResolutionType oid rules
    let group ← groupConflictsByType rules ty rest
    .ok (if crType = ty then oid :: group else group)

def resolveViaApp (appConn : Option CrConnection) (groupedConflicts : GroupedCrData) :
    ResolveM Unit :=
  match appConn with
  | none => throw .brokenCrConnection
  | some exchange => groupedConflicts.groups.forM exchange

/-- `resolveConflicts`, given what reading the schema returned. -/
def resolveConflicts (schema : Except SyncErr (List CrRule)) (appConn : Option CrConnection) :
    ResolveM Unit := fun s ↦
  match schema with
  | .error .noExist => ofSync resolveViaTimestamp s
  | .error e => .error (.sync e) s
  | .ok rules =>
    let conflicts := s.updObjects.keys.filter (isConflictIn s.updObjects)
    match groupConflictsByType rules .appResolves conflicts,
        groupConflictsByType rules .lastWins conflicts with
    | .ok conflictsForApp, .ok rest =>
      match groupConflicts s.tx conflictsForApp s.updObjects with
      | .error e => .error (.sync e) s
      | .ok (groupedConflicts, updObjects) => (do
          resolveViaApp appConn groupedConflicts
          ofSync (rest.forM resolveByTimestamp)) { s with updObjects }
    | .error e, _ | _, .error e => .error (.sync e) s

theorem groupConflictsByType_lastWins {l : List Oid} (ty : ResolverType)
    (h : ∀ o ∈ l, getResolutionType o rules = .ok .lastWins) :
    groupConflictsByType rules ty l = .ok (if ty = .lastWins then l else []) := by
  induction l with
  | nil => exact congrArg Except.ok (ite_self _).symm
  | cons o l ih =>
    rw [forall_mem_cons] at h
    rw [groupConflictsByType, h.1, ih h.2]
    by_cases hty : ty = .lastWins
    · subst hty
      rfl
    · rw [if_neg hty, if_neg hty]
      exact congrArg Except.ok (if_neg (Ne.symm hty))

variable {s s' : Session}

theorem resolveByTimestamp_cases (oid : Oid) (s : Session) :
    (isConflictIn s.updObjects oid = false ∧ resolveByTimestamp oid s = .ok () s) ∨
      isConflictIn s.updObjects oid = true ∧
        ∀ s', resolveByTimestamp oid s = .ok () s' →
          isConflictIn s'.updObjects = isConflictIn s.updObjects := by
  rw [isConflictIn, resolveByTimestamp]
  rcases h : s.updObjects.lookup oid with _ | c
  · exact .inl ⟨rfl, by simp [bind_apply, h]⟩
  · rcases hc : c.isConflict with _ | _
    · exact .inl ⟨hc, by simp [bind_apply, h, onlyIf, hc]⟩
    · refine .inr ⟨hc, fun s' hs' ↦ ?_⟩
      simp only [bind_apply, get_apply, h] at hs'
      rcases onlyIf_eq_ok_iff.mp hs' with ⟨-, hs'⟩ | ⟨-, rfl⟩
      · obtain ⟨res, s₁, -, hset⟩ := bind_eq_ok_iff.mp hs'
        cases hset
        funext o
        rw [isConflictIn, isConflictIn, Table.lookup_insert_eq_ite]
        split
        · next heq => rw [heq, h]; rfl
        · rfl
      · rfl

/-- Objects that are not in conflict make no difference. -/
theorem forM_filter_resolveByTimestamp (l : List Oid) (s : Session) :
    (l.filter (isConflictIn s.updObjects)).forM resolveByTimestamp s
      = l.forM resolveByTimestamp s := by
  induction l generalizing s with
  | nil => rfl
  | cons o l ih =>
    rw [forM_cons_apply]
    rcases resolveByTimestamp_cases o s with ⟨hno, hok⟩ | ⟨hyes, hkeep⟩
    · rw [filter_cons_of_neg (by rw [hno]; exact Bool.false_ne_true), hok]
      exact ih s
    · rw [filter_cons_of_pos hyes, forM_cons_apply]
      rcases hr : resolveByTimestamp o s with ⟨_, s'⟩ | ⟨e, s'⟩
      · rw [← hkeep s' hr]
        exact ih s'
      · rfl

/-- **A schema that maps every conflict to `lastWins`** gives what no schema gives exactly if the
application is connected, although it has nothing to resolve. -/
theorem resolveConflicts_eq_default_iff (appConn : Option CrConnection)
    (h : ∀ o, isConflictIn s.updObjects o = true → getResolutionType o rules = .ok .lastWins) :
    resolveConflicts (.ok rules) appConn s = resolveConflicts (.error .noExist) appConn s ↔
      appConn.isSome = true := by
  have hall : ∀ o ∈ s.updObjects.keys.filter (isConflictIn s.updObjects),
      getResolutionType o rules = .ok .lastWins := fun o ho ↦ h o (List.mem_filter.mp ho).2
  have hschema : resolveConflicts (.ok rules) appConn s = (do
          resolveViaApp appConn ⟨[], []⟩
          ofSync ((s.updObjects.keys.filter (isConflictIn s.updObjects)).forM
            resolveByTimestamp)) s := by
    simp only [resolveConflicts, groupConflictsByType_lastWins _ hall]
    rfl
  rw [hschema]
  rcases appConn with _ | exchange
  · refine iff_of_false ?_ Bool.false_ne_true
    change Result.error CrErr.brokenCrConnection s ≠ ofSync resolveViaTimestamp s
    rw [ofSync]
    split <;> simp
  · refine iff_of_true ?_ rfl
    change ofSync (List.forM _ resolveByTimestamp) s = ofSync resolveViaTimestamp s
    rw [ofSync, ofSync, forM_filter_resolveByTimestamp]
    rfl

theorem connected_like_default :
    resolveConflicts (.ok []) (some fun _ ↦ pure ())
        { Session.start ⟨1, none, ∅, ∅⟩ joinedStore with updObjects := threeConflicts }
      = resolveConflicts (.error .noExist) (some fun _ ↦ pure ())
        { Session.start ⟨1, none, ∅, ∅⟩ joinedStore with updObjects := threeConflicts } := by
  refine (resolveConflicts_eq_default_iff _ fun o _ ↦ ?_).mpr rfl
  rw [getResolutionType]
  split <;> rfl

/-- Without a connection the schema makes a round fail, even one without any conflict. -/
theorem unconnected_app_blocks_round :
    resolveConflicts (.ok []) none (Session.start ⟨1, none, ∅, ∅⟩ Store.empty)
        = .error .brokenCrConnection (Session.start ⟨1, none, ∅, ∅⟩ Store.empty) ∧
      resolveConflicts (.error .noExist) none (Session.start ⟨1, none, ∅, ∅⟩ Store.empty)
        = .ok () (Session.start ⟨1, none, ∅, ∅⟩ Store.empty) := by
  exact ⟨rfl, rfl⟩

end Vanadium.Vsync
