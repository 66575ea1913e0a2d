import PacketCraftr.Foundation.Ranking

/-!
# Port inference

The conclusion that `scan/inference.rs` draws from the attempts on one endpoint: what each attempt
observed is interpreted by a rule of the probing method, the rule of the highest rank decides, and
every attempt is listed as supporting the conclusion, conflicting with it, unanswered or failed.
-/

open List

namespace PacketCraftr.Scan

open Ranking

/-! ### Measurements -/

/-- The local quality of an interval with no correlated reply. -/
inductive Coverage
  | pending
  | unknown
  | noReportedLoss
  | incomplete
  | transportTimeout
  deriving DecidableEq, Repr

def Coverage.permitsSilence : Coverage → Bool
  | .noReportedLoss | .transportTimeout => true
  | _ => false

/-- A response, a qualified absence of a reply, or the inability to observe. -/
inductive Measurement (R : Type)
  | response (reply : R)
  | noReply (coverage : Coverage)
  | unavailable
  deriving DecidableEq, Repr

/-- What a correlated response of a raw probe is. -/
inductive Reply
  | tcpSynAck
  | tcpReset
  | tcpOther
  | udpPayload
  | sctpInitAck
  | sctpAbort
  | sctpOther
  | icmpEchoReply
  | icmpTimestampReply
  | icmpNetmaskReply
  | ipProtocolPayload
  | icmpPortUnreachable
  | icmpProtocolUnreachable
  | icmpAdministrativelyProhibited
  | icmpDestinationUnreachable
  | icmpTimeExceeded
  deriving DecidableEq, Repr

/-- The outcome of a socket attempt. -/
inductive Outcome
  | connected
  | refused
  | timedOut
  | unreachable
  | localError
  | deadlineExpired
  deriving DecidableEq, Repr

def Outcome.measurement : Outcome → Measurement Outcome
  | .connected => .response .connected
  | .refused => .response .refused
  | .unreachable => .response .unreachable
  | .timedOut => .noReply .transportTimeout
  | .localError | .deadlineExpired => .unavailable

inductive Transport
  | tcp
  | udp
  | sctp
  | icmp
  | ip
  deriving DecidableEq, Repr

inductive TcpScan
  | syn
  | ack
  | window
  | fin
  | null
  | xmas
  | maimon
  | custom (flags : ℕ)
  deriving DecidableEq, Repr

inductive SctpScan
  | init
  | cookieEcho
  deriving DecidableEq, Repr

/-! ### Rules -/

inductive State
  | «open»
  | closed
  | filtered
  | openOrFiltered
  | unfiltered
  | unknown
  deriving DecidableEq, Repr

/-- The TCP diagnostic mode a rule interprets. -/
inductive DiagnosticMethod
  | ack
  | window
  | fin
  | null
  | xmas
  | maimon
  | custom
  deriving DecidableEq, Repr

/-- The mode of a TCP scan; a SYN scan has its own rules. -/
def DiagnosticMethod.of : TcpScan → Option DiagnosticMethod
  | .syn => none
  | .ack => some .ack
  | .window => some .window
  | .fin => some .fin
  | .null => some .null
  | .xmas => some .xmas
  | .maimon => some .maimon
  | .custom _ => some .custom

inductive Observed
  | reset
  | resetNonzeroWindow
  | resetZeroWindow
  | icmpUnreachable
  | timeExceeded
  | unclassifiedReply
  | silence
  | reply
  deriving DecidableEq, Repr

def Observed.rank : Observed → ℕ
  | .reset | .resetNonzeroWindow | .resetZeroWindow | .reply => 5
  | .icmpUnreachable => 4
  | .timeExceeded => 3
  | .unclassifiedReply => 2
  | .silence => 1

/-- The interpretation, in a diagnostic mode, of what one attempt observed. -/
structure DiagnosticRule where
  method : DiagnosticMethod
  outcome : Observed
  deriving DecidableEq, Repr

def DiagnosticRule.state (rule : DiagnosticRule) : State :=
  match rule.method, rule.outcome with
  | .custom, _ => .unknown
  | _, .unclassifiedReply => .unknown
  | _, .timeExceeded => .unknown
  | .ack, .reset => .unfiltered
  | .window, .resetNonzeroWindow => .open
  | .window, .resetZeroWindow => .closed
  | _, .icmpUnreachable => .filtered
  | .ack, _ => .filtered
  | .window, _ => .filtered
  | _, .reset => .closed
  | _, _ => .openOrFiltered

inductive Rule
  | synAck
  | synReset
  | synIcmpUnreachable
  | synTimeExceeded
  | synUnclassifiedReply
  | synSilence
  | udpReply
  | udpPortUnreachable
  | udpIcmpUnreachable
  | udpTimeExceeded
  | udpUnclassifiedReply
  | udpSilence
  | sctpInitAck
  | sctpInitAbort
  | sctpInitIcmpUnreachable
  | sctpInitTimeExceeded
  | sctpInitUnclassifiedReply
  | sctpInitSilence
  | sctpCookieEchoAbort
  | sctpCookieEchoIcmpUnreachable
  | sctpCookieEchoTimeExceeded
  | sctpCookieEchoUnclassifiedReply
  | sctpCookieEchoSilence
  | ipProtocolReply
  | ipProtocolUnreachable
  | ipProtocolIcmpUnreachable
  | ipProtocolTimeExceeded
  | ipProtocolUnclassifiedReply
  | ipProtocolSilence
  | connectConnected
  | connectRefused
  | connectUnreachable
  | connectTimedOut
  | tcpDiagnostic (rule : DiagnosticRule)
  | operationalFailure
  deriving DecidableEq, Repr

namespace Rule

/-- The state that the rule concludes; an operational failure concludes none. -/
def state : Rule → Option State
  | .synAck | .udpReply | .sctpInitAck | .ipProtocolReply | .connectConnected => some .open
  | .synReset | .udpPortUnreachable | .sctpInitAbort | .sctpCookieEchoAbort
  | .ipProtocolUnreachable | .connectRefused => some .closed
  | .synIcmpUnreachable | .synTimeExceeded | .synSilence | .udpIcmpUnreachable
  | .udpTimeExceeded | .sctpInitIcmpUnreachable | .sctpInitTimeExceeded | .sctpInitSilence
  | .sctpCookieEchoIcmpUnreachable | .ipProtocolIcmpUnreachable | .ipProtocolTimeExceeded
  | .connectUnreachable | .connectTimedOut => some .filtered
  | .synUnclassifiedReply | .udpUnclassifiedReply | .sctpInitUnclassifiedReply
  | .sctpCookieEchoTimeExceeded | .sctpCookieEchoUnclassifiedReply
  | .ipProtocolUnclassifiedReply => some .unknown
  | .udpSilence | .sctpCookieEchoSilence | .ipProtocolSilence => some .openOrFiltered
  | .tcpDiagnostic rule => some rule.state
  | .operationalFailure => none

/-- Whether the rule concludes from the absence of any reply. -/
def isSilence : Rule → Bool
  | .synSilence | .udpSilence | .sctpInitSilence | .sctpCookieEchoSilence | .ipProtocolSilence
  | .connectTimedOut => true
  | .tcpDiagnostic rule => rule.outcome == .silence
  | _ => false

def rank : Rule → ℕ
  | .synAck | .udpReply | .sctpInitAck | .ipProtocolReply | .connectConnected => 6
  | .synReset | .udpPortUnreachable | .sctpInitAbort | .sctpCookieEchoAbort
  | .ipProtocolUnreachable | .connectRefused => 5
  | .synIcmpUnreachable | .udpIcmpUnreachable | .sctpInitIcmpUnreachable
  | .sctpCookieEchoIcmpUnreachable | .ipProtocolIcmpUnreachable | .connectUnreachable => 4
  | .synTimeExceeded | .udpTimeExceeded | .sctpInitTimeExceeded | .sctpCookieEchoTimeExceeded
  | .ipProtocolTimeExceeded => 3
  | .synUnclassifiedReply | .udpUnclassifiedReply | .sctpInitUnclassifiedReply
  | .sctpCookieEchoUnclassifiedReply | .ipProtocolUnclassifiedReply => 2
  | .synSilence | .udpSilence | .sctpInitSilence | .sctpCookieEchoSilence | .ipProtocolSilence
  | .connectTimedOut => 1
  | .tcpDiagnostic rule => rule.outcome.rank
  | .operationalFailure => 0

def isCustomSilence : Rule → Bool
  | .tcpDiagnostic rule => rule.method == .custom && rule.outcome == .silence
  | _ => false

end Rule

def diagnosticRule (method : DiagnosticMethod) (reply : Option Reply) (window : Option ℕ) : Rule :=
  .tcpDiagnostic
    { method
      outcome :=
        match method, reply with
        | _, none => .silence
        | .custom, some _ => .reply
        | _, some .icmpPortUnreachable => .icmpUnreachable
        | _, some .icmpAdministrativelyProhibited => .icmpUnreachable
        | _, some .icmpDestinationUnreachable => .icmpUnreachable
        | _, some .icmpTimeExceeded => .timeExceeded
        | .window, some .tcpReset =>
          match window with
          | some 0 => .resetZeroWindow
          | some _ => .resetNonzeroWindow
          | none => .unclassifiedReply
        | _, some .tcpReset => .reset
        | _, some _ => .unclassifiedReply }

def synRule : Option Reply → Rule
  | some .tcpSynAck => .synAck
  | some .tcpReset => .synReset
  | some .icmpPortUnreachable | some .icmpProtocolUnreachable
  | some .icmpAdministrativelyProhibited | some .icmpDestinationUnreachable => .synIcmpUnreachable
  | some .icmpTimeExceeded => .synTimeExceeded
  | some _ => .synUnclassifiedReply
  | none => .synSilence

def udpRule : Option Reply → Rule
  | some .udpPayload => .udpReply
  | some .icmpPortUnreachable => .udpPortUnreachable
  | some .icmpProtocolUnreachable | some .icmpAdministrativelyProhibited
  | some .icmpDestinationUnreachable => .udpIcmpUnreachable
  | some .icmpTimeExceeded => .udpTimeExceeded
  | some _ => .udpUnclassifiedReply
  | none => .udpSilence

def sctpRule : SctpScan → Option Reply → Rule
  | .init, some .sctpInitAck => .sctpInitAck
  | .init, some .sctpAbort => .sctpInitAbort
  | .init, some .icmpPortUnreachable | .init, some .icmpProtocolUnreachable
  | .init, some .icmpAdministrativelyProhibited
  | .init, some .icmpDestinationUnreachable => .sctpInitIcmpUnreachable
  | .init, some .icmpTimeExceeded => .sctpInitTimeExceeded
  | .init, some _ => .sctpInitUnclassifiedReply
  | .init, none => .sctpInitSilence
  | .cookieEcho, some .sctpAbort => .sctpCookieEchoAbort
  | .cookieEcho, some .icmpPortUnreachable | .cookieEcho, some .icmpProtocolUnreachable
  | .cookieEcho, some .icmpAdministrativelyProhibited
  | .cookieEcho, some .icmpDestinationUnreachable => .sctpCookieEchoIcmpUnreachable
  | .cookieEcho, some .icmpTimeExceeded => .sctpCookieEchoTimeExceeded
  | .cookieEcho, some _ => .sctpCookieEchoUnclassifiedReply
  | .cookieEcho, none => .sctpCookieEchoSilence

def ipProtocolRule : Option Reply → Rule
  | some .ipProtocolPayload => .ipProtocolReply
  | some .icmpProtocolUnreachable => .ipProtocolUnreachable
  | some .icmpPortUnreachable | some .icmpAdministrativelyProhibited
  | some .icmpDestinationUnreachable => .ipProtocolIcmpUnreachable
  | some .icmpTimeExceeded => .ipProtocolTimeExceeded
  | some _ => .ipProtocolUnclassifiedReply
  | none => .ipProtocolSilence

/-! ### The conclusion -/

structure Inference where
  state : Option State
  rule : Rule
  supporting : List ℕ
  conflicting : List ℕ
  unanswered : List ℕ
  failed : List ℕ
  deriving DecidableEq, Repr

/-- The lists of an inference. -/
inductive Bucket
  | supporting
  | conflicting
  | unanswered
  | failed
  deriving DecidableEq, Repr

/-- Where an attempt is listed beside a decisive rule. -/
def bucket (decisive : Option Rule) : Option Rule → Bucket
  | none => .failed
  | some rule =>
    if rule.isCustomSilence && !decisive.any Rule.isSilence then .unanswered
    else if rule.state = decisive.bind Rule.state then .supporting
    else if rule.isSilence then .unanswered
    else .conflicting

def Inference.push (inference : Inference) (sequence : ℕ) : Bucket → Inference
  | .supporting => { inference with supporting := inference.supporting ++ [sequence] }
  | .conflicting => { inference with conflicting := inference.conflicting ++ [sequence] }
  | .unanswered => { inference with unanswered := inference.unanswered ++ [sequence] }
  | .failed => { inference with failed := inference.failed ++ [sequence] }

/-- The rule that decides among attempts in the order of their sequences. -/
def decisiveRule (attempts : List (ℕ × Option Rule)) : Option Rule :=
  firstMax Rule.rank (attempts.filterMap Prod.snd)

def conclude (attempts : List (ℕ × Option Rule)) : Inference :=
  let attempts := sortBy Prod.fst attempts
  let decisive := decisiveRule attempts
  attempts.foldl (fun inference attempt =>
      inference.push attempt.1 (bucket decisive attempt.2))
    { state := decisive.bind Rule.state
      rule := decisive.getD .operationalFailure
      supporting := []
      conflicting := []
      unanswered := []
      failed := [] }

/-- A raw attempt: what it measured, the mode it was sent in, and the window of the response. -/
structure Attempt where
  sequence : ℕ
  measurement : Measurement Reply
  tcpScan : Option TcpScan
  sctpScan : Option SctpScan
  tcpWindow : Option ℕ
  deriving DecidableEq, Repr

/-- The rule that interprets the reply of a raw attempt, or its silence. A probe of the host infers
no state of a port. -/
def Attempt.replyRule (attempt : Attempt) (reply : Option Reply) : Transport → Option Rule
  | .tcp =>
    match attempt.tcpScan.bind DiagnosticMethod.of with
    | some method => some (diagnosticRule method reply attempt.tcpWindow)
    | none => some (synRule reply)
  | .udp => some (udpRule reply)
  | .sctp => some (sctpRule (attempt.sctpScan.getD .init) reply)
  | .ip => some (ipProtocolRule reply)
  | .icmp => none

/-- What a raw attempt observed. -/
def Attempt.rule (transport : Transport) (attempt : Attempt) : Option Rule :=
  match attempt.measurement with
  | .response reply => attempt.replyRule (some reply) transport
  | .noReply coverage =>
    if coverage.permitsSilence then attempt.replyRule none transport else none
  | .unavailable => none

def raw (transport : Transport) (attempts : List Attempt) : Option Inference :=
  if transport = .icmp then none
  else some (conclude (attempts.map fun attempt => (attempt.sequence, attempt.rule transport)))

/-- What a socket attempt observed. -/
def Outcome.rule (outcome : Outcome) : Option Rule :=
  let interpret : Outcome → Option Rule
    | .connected => some .connectConnected
    | .refused => some .connectRefused
    | .unreachable => some .connectUnreachable
    | .timedOut => some .connectTimedOut
    | .localError | .deadlineExpired => none
  match outcome.measurement with
  | .response outcome => interpret outcome
  | .noReply _ => interpret .timedOut
  | .unavailable => none

def connect (attempts : List (ℕ × Outcome)) : Inference :=
  conclude (attempts.map fun attempt => (attempt.1, attempt.2.rule))

/-! ### The lists of an inference -/

namespace Inference

variable {i : Inference}

def list (inference : Inference) : Bucket → List ℕ
  | .supporting => inference.supporting
  | .conflicting => inference.conflicting
  | .unanswered => inference.unanswered
  | .failed => inference.failed

theorem list_push (s : ℕ) (b b' : Bucket) : (i.push s b).list b' =
      i.list b' ++ if b = b' then [s] else [] := by
  cases b <;> cases b' <;> simp [push, list]

@[simp]
theorem state_push (s : ℕ) (b : Bucket) : (i.push s b).state = i.state := by
  cases b <;> rfl

@[simp]
theorem rule_push (s : ℕ) (b : Bucket) : (i.push s b).rule = i.rule := by
  cases b <;> rfl

theorem foldl_push (place : Option Rule → Bucket) (attempts : List (ℕ × Option Rule)) (i : Inference) :
    let i' := attempts.foldl (fun i a => i.push a.1 (place a.2)) i
    i'.state = i.state ∧ i'.rule = i.rule ∧
      ∀ b, i'.list b = i.list b ++ (attempts.filter (place ·.2 = b)).map Prod.fst := by
  induction attempts generalizing i with
  | nil => simp
  | cons a attempts ih =>
    obtain ⟨hs, hr, hl⟩ := ih (i.push a.1 (place a.2))
    refine ⟨by simpa using hs, by simpa using hr, fun b => ?_⟩
    rw [foldl_cons, hl, list_push]
    by_cases hb : place a.2 = b <;> simp [hb]

/-- An inference drawn from attempts, each with the rule of its observation if it made one: the
first observation of the highest rank decides, and every attempt is in one of the lists. -/
structure Concludes (inference : Inference) (attempts : List (ℕ × Option Rule)) : Prop where
  decisive :
    (∃ sequence, (sequence, some inference.rule) ∈ attempts ∧
      inference.state = inference.rule.state ∧
      ∀ other ∈ attempts, ∀ rule ∈ other.2, rule.rank < inference.rule.rank ∨
        rule.rank = inference.rule.rank ∧ sequence ≤ other.1) ∨
    (∀ attempt ∈ attempts, attempt.2 = none) ∧ inference.rule = .operationalFailure ∧
      inference.state = none
  ascending : ∀ b, (inference.list b).Pairwise (· < ·)
  disjoint : ∀ b b', b ≠ b' → (inference.list b).Disjoint (inference.list b')
  perm : (inference.supporting ++ (inference.conflicting ++
    (inference.unanswered ++ inference.failed))).Perm (attempts.map Prod.fst)
  mem_failed : ∀ sequence, sequence ∈ inference.failed ↔ (sequence, none) ∈ attempts
  supporting_ne_nil : inference.state ≠ none → inference.supporting ≠ []

end Inference

section Conclude

variable {am : List (ℕ × Option Rule)} {rule : Rule}

theorem state_conclude : (conclude am).state =
    (decisiveRule (sortBy Prod.fst am)).bind Rule.state :=
  (Inference.foldl_push _ _ _).1

theorem rule_conclude : (conclude am).rule =
    (decisiveRule (sortBy Prod.fst am)).getD .operationalFailure :=
  (Inference.foldl_push _ _ _).2.1

theorem list_conclude (b : Bucket) : (conclude am).list b = ((sortBy Prod.fst am).filter
      (bucket (decisiveRule (sortBy Prod.fst am)) ·.2 = b)).map Prod.fst := by
  refine ((Inference.foldl_push _ _ _).2.2 b).trans ?_
  cases b <;> rfl

theorem mem_list_conclude {b : Bucket} {s : ℕ} : s ∈ (conclude am).list b ↔ ∃ o, (s, o) ∈ am ∧
      bucket (decisiveRule (sortBy Prod.fst am)) o = b := by
  simp [list_conclude, (perm_sortBy Prod.fst am).mem_iff]

theorem bucket_self (rule : Rule) : bucket (some rule) (some rule) = .supporting := by
  have hc : (rule.isCustomSilence && !rule.isSilence) = false := by
    cases rule with
    | tcpDiagnostic rule => cases h : rule.outcome == Observed.silence <;>
        simp [Rule.isCustomSilence, Rule.isSilence, h]
    | _ => rfl
  simp [bucket, hc]

theorem bucket_eq_failed {d o : Option Rule} : bucket d o = .failed ↔ o = none := by
  cases o with
  | none => exact iff_of_true rfl rfl
  | some rule =>
    simp only [bucket, reduceCtorEq, iff_false]
    split_ifs <;> nofun

variable (h : (am.map Prod.fst).Nodup)
include h

/-- The decisive rule is that of an attempt, and no attempt before it has a rule of its rank. -/
theorem exists_of_decisiveRule (hrl : decisiveRule (sortBy Prod.fst am) = some rule) :
    ∃ s, (s, some rule) ∈ am ∧ ∀ other ∈ am, ∀ r ∈ other.2,
      r.rank < rule.rank ∨ r.rank = rule.rank ∧ s ≤ other.1 := by
  obtain ⟨before, after, hs, hb, haf⟩ := firstMax_eq_some hrl
  obtain ⟨first, rest, hsr, rfl, hrs⟩ := filterMap_eq_append_iff.mp hs
  obtain ⟨silent, ⟨s, o⟩, last, rfl, hsl, rfl, rfl⟩ := filterMap_eq_cons_iff.mp hrs
  have ha := pairwise_sortBy_lt h
  have hmem (a : ℕ × Option Rule) := (perm_sortBy Prod.fst am).mem_iff (a := a)
  simp only [hsr, mem_append, mem_cons] at ha hmem
  refine ⟨s, (hmem _).mp (.inr (.inr (.inl rfl))), fun other ho r hr => ?_⟩
  rcases (hmem other).mpr ho with hi | hi | rfl | hi
  · exact .inl (hb r (mem_filterMap.mpr ⟨other, hi, hr⟩))
  · rw [hsl other hi] at hr
    cases hr
  · obtain rfl := Option.some.inj hr
    exact .inr ⟨rfl, le_rfl⟩
  · have hlt := rel_of_pairwise_cons
      (ha.sublist ((sublist_append_right _ _).trans (sublist_append_right _ _))) hi
    exact (haf r (mem_filterMap.mpr ⟨other, hi, hr⟩)).lt_or_eq.imp_right fun heq => ⟨heq, hlt.le⟩

theorem concludes_conclude : (conclude am).Concludes am := by
  have ha (b : Bucket) : ((conclude am).list b).Pairwise (· < ·) := by
    rw [list_conclude]
    exact pairwise_map.mpr ((pairwise_sortBy_lt h).filter _)
  have hds (b b' : Bucket) (hne : b ≠ b') :
      ((conclude am).list b).Disjoint ((conclude am).list b') := by
    intro s hb hb'
    obtain ⟨o, hi, rfl⟩ := mem_list_conclude.mp hb
    obtain ⟨o', hi', rfl⟩ := mem_list_conclude.mp hb'
    cases inj_on_of_nodup_map h hi hi' rfl
    exact hne rfl
  refine ⟨?_, ha, hds, ?_, fun s => ?_, fun hs hnil => ?_⟩
  · rw [state_conclude, rule_conclude]
    cases hd : decisiveRule (sortBy Prod.fst am) with
    | none =>
      refine .inr ⟨fun a hat => ?_, rfl, rfl⟩
      have hn := filterMap_eq_nil_iff.mp (firstMax_eq_none hd)
      exact hn a ((perm_sortBy _ _).mem_iff.mpr hat)
    | some rule =>
      obtain ⟨s, hi, hf⟩ := exists_of_decisiveRule h hd
      exact .inl ⟨s, hi, rfl, hf⟩
  · have hnd : ([Bucket.supporting, .conflicting, .unanswered, .failed].flatMap
        (conclude am).list).Nodup :=
      nodup_flatMap.mpr ⟨fun b _ => (ha b).imp ne_of_lt, Pairwise.imp (hds _ _) (by decide)⟩
    rw [← append_nil (conclude am).failed]
    refine (perm_ext_iff_of_nodup hnd h).mpr fun s => ?_
    rw [mem_flatMap, mem_map]
    constructor
    · rintro ⟨b, -, hb⟩
      obtain ⟨o, hi, -⟩ := mem_list_conclude.mp hb
      exact ⟨_, hi, rfl⟩
    · rintro ⟨⟨s, o⟩, hi, rfl⟩
      refine ⟨_, ?_, mem_list_conclude.mpr ⟨o, hi, rfl⟩⟩
      cases bucket _ o <;> decide
  · exact mem_list_conclude (b := .failed).trans (by simp [bucket_eq_failed])
  · rw [state_conclude] at hs
    obtain ⟨rule, hd⟩ : ∃ rule, decisiveRule (sortBy Prod.fst am) = some rule :=
      Option.ne_none_iff_exists'.mp fun hn => hs (by rw [hn]; rfl)
    obtain ⟨s, hi, -⟩ := exists_of_decisiveRule h hd
    have hmem : s ∈ (conclude am).list .supporting :=
      mem_list_conclude.mpr ⟨_, hi, by rw [hd, bucket_self]⟩
    exact ne_nil_of_mem hmem hnil

theorem conclude_eq_of_perm {am' : List (ℕ × Option Rule)} (hp : am'.Perm am) :
    conclude am' = conclude am := by
  rw [conclude, sortBy_eq_of_perm h hp]
  rfl

end Conclude

/-! ### Raw and socket attempts -/

/-- An interval that was observed well enough to conclude from it. -/
def Measurement.observes {R : Type} : Measurement R → Bool
  | .response _ => true
  | .noReply coverage => coverage.permitsSilence
  | .unavailable => false

theorem Attempt.rule_eq_none {t : Transport} (ht : t ≠ .icmp)
    (a : Attempt) : a.rule t = none ↔ a.measurement.observes = false := by
  have hs (r : Option Reply) : a.replyRule r t ≠ none := by
    cases t with
    | icmp => exact absurd rfl ht
    | tcp => rw [replyRule]; split <;> nofun
    | _ => nofun
  rw [rule]
  cases a.measurement with
  | response r => exact iff_of_false (hs _) nofun
  | noReply c =>
    cases h : c.permitsSilence <;> simp [Measurement.observes, h, hs]
  | unavailable => exact iff_of_true rfl rfl

theorem Outcome.rule_eq_none (o : Outcome) : o.rule = none ↔ o.measurement.observes = false := by
  cases o <;> decide

/-- The order in which attempts with different sequences are delivered does not matter for the
inference, which lists as failed those that observed nothing. -/
theorem concludes_of_delivery :
    (∀ (transport : Transport) (attempts attempts' : List Attempt),
      (attempts.map Attempt.sequence).Nodup → attempts'.Perm attempts →
      raw transport attempts' = raw transport attempts ∧
        (raw transport attempts = none ↔ transport = .icmp) ∧
        ∀ inference ∈ raw transport attempts,
          inference.Concludes (attempts.map fun a => (a.sequence, a.rule transport)) ∧
          ∀ sequence, sequence ∈ inference.failed ↔
            ∃ a ∈ attempts, a.sequence = sequence ∧ a.measurement.observes = false) ∧
    ∀ attempts attempts' : List (ℕ × Outcome),
      (attempts.map Prod.fst).Nodup → attempts'.Perm attempts →
      connect attempts' = connect attempts ∧
        (connect attempts).Concludes (attempts.map fun a => (a.1, a.2.rule)) ∧
        ∀ sequence, sequence ∈ (connect attempts).failed ↔
          ∃ a ∈ attempts, a.1 = sequence ∧ a.2.measurement.observes = false := by
  refine ⟨fun transport attempts attempts' h hp => ?_, fun attempts attempts' h hp => ?_⟩
  · have hn : ((attempts.map fun a => (a.sequence, a.rule transport)).map Prod.fst).Nodup := by
      rwa [map_map]
    rw [raw, raw, conclude_eq_of_perm hn (hp.map _)]
    refine ⟨rfl, by simp, fun inference hi => ?_⟩
    obtain ⟨ht, ⟨⟩⟩ := Option.ite_none_left_eq_some.mp hi
    have hc := concludes_conclude hn
    refine ⟨hc, fun sequence => (hc.mem_failed sequence).trans ?_⟩
    simp [Attempt.rule_eq_none ht]
  · have hn : ((attempts.map fun a => (a.1, a.2.rule)).map Prod.fst).Nodup := by
      rwa [map_map]
    have hc := concludes_conclude hn
    refine ⟨conclude_eq_of_perm hn (hp.map _), hc, fun sequence => ?_⟩
    refine (hc.mem_failed sequence).trans ?_
    simp [Outcome.rule_eq_none]

/-- Four SYN probes: an answer, silence, a reset and one that could not be observed. They are delivered
in the opposite order, as are two connection attempts. -/
theorem concludes_of_delivery_reversed :
    let probe (sequence : ℕ) (measurement : Measurement Reply) : Attempt :=
      ⟨sequence, measurement, some .syn, none, none⟩
    let attempts := [probe 1 (.response .tcpSynAck), probe 2 (.noReply .noReportedLoss),
      probe 3 (.response .tcpReset), probe 4 .unavailable]
    raw .tcp attempts.reverse = raw .tcp attempts ∧
      raw .tcp attempts = some ⟨some .open, .synAck, [1], [3], [2], [4]⟩ ∧
      connect [(2, .refused), (1, .timedOut)] = connect [(1, .timedOut), (2, .refused)] ∧
      connect [(1, .timedOut), (2, .refused)] = ⟨some .closed, .connectRefused, [2], [], [1], []⟩ :=
  ⟨(concludes_of_delivery.1 .tcp _ _ (by decide) (reverse_perm _)).1, by decide,
    (concludes_of_delivery.2 _ _ (by decide) (.swap _ _ _)).1, by decide⟩

end PacketCraftr.Scan
