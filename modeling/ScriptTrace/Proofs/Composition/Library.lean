import ScriptTrace.Proofs.Composition.Array

/-!
# Proofs/Composition/Library — what the host offers

The functions, constructors and methods of the host, those of arrays and promises included.
-/

namespace ScriptTrace

namespace Plain

variable {l : Layer} {W : World}

/-! ## Objects -/

theorem requireObject {v : Value} {line : Nat} : Plain l W (Exec.requireObject v line) Any :=
  .ite (fun _ => .bind inspect fun _ _ => never (misuse rfl)) fun _ => .pure trivial

theorem entriesOf {args : List Value} {line : Nat} :
    Plain l W (Exec.entriesOf args line) (Within W) :=
  .bind requireObject fun _ _ => withHeap fun _ hh => .pure hh.ownEntries

theorem setMembers {target : Value} {line : Nat} (ht : Within W target) :
    ∀ {es : List (String × Value)}, Within W es → Plain l W (Exec.setMembers target line es) Any
  | [], _ => .pure trivial
  | (_, _) :: _, he =>
    .bind (setMember ht (within_pair.mp (within_cons.mp he).1)) fun _ _ =>
      setMembers ht (within_cons.mp he).2

theorem assignAll {target : Value} {line : Nat} (ht : Within W target) :
    ∀ {sources : List Value}, Plain l W (Exec.assignAll target line sources) Any
  | [] => .pure trivial
  | _ :: _ => withHeap fun _ hh => .bind (setMembers ht hh.ownEntries) fun _ _ => assignAll ht

theorem objectAssign {args : List Value} {line : Nat} (ha : Within W args) :
    Plain l W (Exec.objectAssign args line) (Within W) :=
  .bind requireObject fun _ _ => .bind (assignAll (ha.argument 0)) fun _ _ => .pure (ha.argument 0)

/-- To freeze an object leaves it where it is. -/
theorem objectFreeze {args : List Value} (ha : Within W args) :
    Plain l W (Exec.objectFreeze args) (Within W) := by
  have htarget := ha.argument 0
  unfold Exec.objectFreeze
  generalize argument args 0 = target at htarget ⊢
  cases target with
  | object id =>
    exact .bind (write fun _ _ => .change (within_object.mp htarget) within_freeze rfl trivial)
      fun _ _ => .pure htarget
  | _ => exact .pure htarget

theorem plainMethod {id : ObjectId} {props : Props} {method : String} {args : List Value} :
    Plain l W (Exec.plainMethod id props method args) (Within W) := by
  unfold Exec.plainMethod
  split
  · exact .map text fun _ _ => within_bool
  · exact .map text fun _ _ => within_string
  · exact .pure within_undefined

/-! ## Numbers -/

theorem numbers : ∀ {vs : List Value}, Plain l W (Exec.numbers vs) Any
  | [] => .pure trivial
  | _ :: _ => .bind number fun _ _ => .map numbers fun _ _ => trivial

theorem fixedPlaces {x : Float} {places : Value} {line : Nat} :
    Plain l W (Exec.fixedPlaces x places line) (Within W) := by
  refine .ite (fun _ => ?_) fun _ => .bind number fun _ _ => ?_
  all_goals
    refine .bind (P := Any) (.pure trivial) fun p _ => ?_
    exact .ite (fun _ => .pure within_string) fun _ => never raise

theorem inRadix {x : Float} {radix : Value} {line : Nat} :
    Plain l W (Exec.inRadix x radix line) (Within W) := by
  refine .ite (fun _ => .bind (P := Any) (.pure trivial) fun r _ => ?_) fun _ =>
    .bind number fun r _ => ?_
  all_goals exact .ite (fun _ => .pure within_string) fun _ => never raise

theorem numberMethod {x : Float} {method : String} {args : List Value} {line : Nat} :
    Plain l W (Exec.numberMethod x method args line) (Within W) := by
  unfold Exec.numberMethod
  split
  · exact fixedPlaces
  · exact inRadix
  · exact .pure within_undefined

theorem callMath {f : MathFunction} {args : List Value} :
    Plain l W (Exec.callMath f args) (Within W) := by
  refine .bind numbers fun xs _ => ?_
  split
  · exact .bind (.elementary .random) fun _ _ => .pure within_number
  · exact .pure within_number

theorem parseInt {args : List Value} : Plain l W (Exec.parseInt args) (Within W) := by
  refine .bind text fun s _ => .ite (fun _ => ?_) fun _ => .bind number fun _ _ => ?_
  all_goals exact .bind (P := Any) (.pure trivial) fun _ _ => .pure within_number

theorem parseFloat {args : List Value} : Plain l W (Exec.parseFloat args) (Within W) :=
  .map text fun _ _ => within_number

/-! ## Texts -/

theorem placeArgument {v : Value} {n missing : Nat} :
    Plain l W (Exec.placeArgument v n missing) Any :=
  .ite (fun _ => .pure trivial) fun _ => .map number fun _ _ => trivial

theorem concatTexts {line : Nat} :
    ∀ {out : String} {vs : List Value}, Plain l W (Exec.concatTexts line out vs) Any
  | _, [] => .pure trivial
  | _, _ :: _ => .bind text fun _ _ => .bind checkStringLength fun _ _ => concatTexts

theorem repeatText {s : String} {count : Value} {line : Nat} :
    Plain l W (Exec.repeatText s count line) (Within W) := by
  refine .bind number fun x _ => .ite (fun _ => ?_) fun _ => ?_
  · exact .bind text fun _ _ => .bind raise nofun
  · exact .bind checkStringLength fun _ _ => .pure within_string

theorem paddingFor {cs : List Char} {args : List Value} {line : Nat} :
    Plain l W (Exec.paddingFor cs args line) Any := by
  refine .bind number fun n _ => .ite (fun _ => ?_) fun _ => .bind text fun _ _ => ?_
  all_goals
    refine .bind (P := Any) (.pure trivial) fun fill _ => .ite (fun _ => .pure trivial) fun _ => ?_
    exact .bind checkStringLength fun _ _ => .pure trivial

/-! ## Timers and documents -/

/-- A timer keeps its function and arguments. -/
theorem setTimer {name : String} {args : List Value} {line : Nat} (ha : Within W args) :
    Plain l W (Exec.setTimer name args line) (Within W) := by
  refine .bind isCallable fun c _ => .ite (fun _ => .bind inspect fun _ _ => ?_) fun _ => ?_
  · exact .bind (misuse rfl) nofun
  refine .bind number fun delay _ => withHeap fun h _ => ?_
  refine .bind (.elementary (.addTimer (ha.argument 0) (ha.drop 2))) fun id _ => ?_
  exact .bind (recordHere rfl) fun _ _ => .pure within_count

/-- To clear a timer takes it off the list, and nothing else. -/
theorem clearTimer {name : String} {args : List Value} {line : Nat} :
    Plain l W (Exec.clearTimer name args line) (Within W) := by
  unfold Exec.clearTimer
  split
  · exact .bind (P := Any) (.pure trivial) fun _ _ => .bind (recordHere rfl) fun _ _ =>
      .pure within_undefined
  · exact .bind inspect fun _ _ => .bind (recordHere rfl) fun _ _ => .pure within_undefined

/-- A microtask keeps its function. -/
theorem queueMicrotask {args : List Value} {line : Nat} (ha : Within W args) :
    Plain l W (Exec.queueMicrotask args line) (Within W) := by
  refine .bind isCallable fun c _ => .ite (fun _ => .bind inspect fun _ _ => ?_) fun _ => ?_
  · exact .bind (misuse rfl) nofun
  refine withHeap fun h _ => ?_
  refine .bind (.elementary (.addMicrotask (ha.argument 0) within_nil)) fun _ _ => ?_
  exact .bind (.elementary .showQueued) fun _ _ => .pure within_undefined

/-- A text has no references in it. -/
theorem stringify {args : List Value} {line : Nat} :
    Plain l W (Exec.stringify args line) (Within W) := by
  refine withHeap fun h _ => withCeiling fun limit => ?_
  split
  · exact never raise
  · exact never raise
  · exact .pure within_undefined
  · exact .bind checkStringLength fun _ _ => .pure within_string

theorem convert {h : HostObject} {args : List Value} {line : Nat} :
    Plain l W (Exec.convert h args line) (Within W) := by
  unfold Exec.convert
  split
  · exact .pure within_number
  · exact .map number fun _ _ => within_number
  · exact .pure within_string
  · exact .bind text fun _ _ => .bind checkStringLength fun _ _ => .pure within_string
  · exact .pure within_bool

end Plain

namespace Action

variable {l : Layer} {W : World}

theorem objectKeys {args : List Value} {line : Nat} :
    Action l W (fun _ => Exec.objectKeys args line) Within := by
  refine .seq .entriesOf fun es _ => makeArray (within_toArray.mpr (within_list.mpr fun v hv => ?_))
  obtain ⟨e, -, rfl⟩ := List.mem_map.mp hv
  exact within_string

theorem objectValues {args : List Value} {line : Nat} :
    Action l W (fun _ => Exec.objectValues args line) Within :=
  .seq .entriesOf fun _ he => makeArray (within_toArray.mpr he.values)

/-- Each entry becomes an array of its key and value. -/
theorem makePairs : ∀ {W : World} {es : List (String × Value)}, Within W es →
    Action l W (fun _ => Exec.makePairs es) Within
  | _, [], _ => .pure within_nil
  | _, (k, v) :: es, he => by
    obtain ⟨hv, hes⟩ := within_cons.mp he
    refine .bind (makeArray ?_) fun W₁ h₁ pair hp =>
      .map (makePairs (hes.mono h₁)) fun _ h _ hr => ?_
    · exact within_cons.mpr ⟨within_string, within_cons.mpr ⟨hv, within_nil⟩⟩
    · exact within_cons.mpr ⟨hp.mono h, hr⟩

theorem objectEntries {args : List Value} {line : Nat} :
    Action l W (fun _ => Exec.objectEntries args line) Within :=
  .seq .entriesOf fun _ he => .bind (makePairs he) fun _ _ _ h => makeArray (within_toArray.mpr h)

/-- The pieces of a text have no references in them. -/
theorem splitText {cs : List Char} {args : List Value} :
    Action l W (fun _ => Exec.splitText cs args) Within := by
  have hchars (pieces : List (List Char)) : Within W (pieces.map Value.chars).toArray := by
    refine within_toArray.mpr (within_list.mpr fun v hv => ?_)
    obtain ⟨cs, -, rfl⟩ := List.mem_map.mp hv
    exact within_chars
  refine .ite (fun _ => ?_) fun _ => .seq .text fun _ _ => ?_
  all_goals
    refine .seq (P := Any) (.pure trivial) fun pieces _ => ?_
    refine .ite (fun _ => ?_) fun _ => .seq .number fun _ _ => ?_
    all_goals exact .seq (P := Any) (.pure trivial) fun pieces _ => makeArray (hchars pieces)

theorem replacementText {pattern whole : String} {replacement : Value} {place line : Nat}
    (hr : Within W replacement) :
    Action l W (fun ev => ev.replacementText pattern whole replacement place line) Free := by
  refine .seq .isCallable fun c _ => .ite (fun _ => ?_) fun _ => .done .text
  exact .bind (apply hr within_undefined (by simp)) fun _ _ _ _ => .done .text

theorem joinReplaced {pattern whole : String} {replacement : Value} {line : Nat} :
    ∀ {W : World} {place : Nat} {out : String} {pieces : List (List Char)},
      Within W replacement →
        Action l W (fun ev => ev.joinReplaced pattern whole replacement line place out pieces) Free
  | _, _, _, [], _ => .pure trivial
  | _, _, _, _ :: _, hr =>
    .bind (replacementText hr) fun _ h _ _ => .seq .checkStringLength fun _ _ =>
      joinReplaced (hr.mono h)

theorem replacedText {s : String} {isGlobal : Bool} {args : List Value} {line : Nat}
    (ha : Within W args) : Action l W (fun ev => ev.replacedText s isGlobal args line) Free := by
  refine .seq .text fun pattern _ => ?_
  split
  · exact .pure trivial
  · exact joinReplaced (ha.argument 1)

/-- **A method of a text** asks the evaluator for replacements only. -/
theorem stringMethod {s method : String} {args : List Value} {line : Nat} (ha : Within W args) :
    Action l W (fun ev => ev.stringMethod s method args line) Within := by
  have hpattern : Plain l W (do return (← Exec.text (argument args 0)).toList) Any :=
    .map .text fun _ _ => trivial
  unfold Evaluator.stringMethod
  dsimp only
  split
  iterate 6 exact .pure (by simp)
  · exact .seq .concatTexts fun _ _ => .pure within_string
  · exact .seq hpattern fun _ _ => .pure within_bool
  iterate 2 exact .seq .placeArgument fun _ _ => .seq hpattern fun _ _ => .pure within_bool
  · refine .seq .placeArgument fun _ _ => .seq hpattern fun _ _ => ?_
    split
    all_goals first | exact .pure within_count | exact .pure within_number
  · refine .seq hpattern fun _ _ => ?_
    split
    all_goals first | exact .pure within_count | exact .pure within_number
  · exact .seq .relativeArgument fun _ _ => .seq .relativeArgument fun _ _ => .pure within_chars
  · exact .seq .placeArgument fun _ _ => .seq .placeArgument fun _ _ => .pure within_chars
  · exact .seq .placeArgument fun _ _ => .pure within_chars
  · refine .seq .placeArgument fun i _ => .pure ?_
    cases s.toList[i]?
    · exact within_number
    · exact within_count
  · refine .seq .number fun x _ => .pure ?_
    cases (elementPlace? s.toList.length x).bind (s.toList[·]?)
    · exact within_undefined
    · exact within_chars
  · exact splitText
  · exact .plain .repeatText fun _ => id
  iterate 2 exact .seq .paddingFor fun _ _ => .pure within_chars
  iterate 2 exact .map (replacedText ha) fun _ _ _ _ => within_string
  · exact .never (.misuse rfl)

mutual

/-- **Reading a document** makes the arrays and objects in it. -/
theorem makeDocument :
    ∀ {W : World} (j : Json), Action l W (fun _ => Exec.makeDocument j) Within
  | _, .null => .pure within_null
  | _, .bool _ => .pure within_bool
  | _, .integer _ => .pure within_number
  | _, .real _ => .pure within_number
  | _, .string _ => .pure within_string
  | _, .array items => .bind (makeItems items) fun _ _ _ h => makeArray (within_toArray.mpr h)
  | _, .object members => .bind (makeMembers members) fun _ _ _ h => makePlain h.propsOfList

theorem makeItems :
    ∀ {W : World} (js : List Json), Action l W (fun _ => Exec.makeItems js) Within
  | _, [] => .pure within_nil
  | _, j :: js => .bind (makeDocument j) fun _ _ _ hv => .map (makeItems js) fun _ h _ hvs =>
    within_cons.mpr ⟨hv.mono h, hvs⟩

theorem makeMembers :
    ∀ {W : World} (ms : List (String × Json)), Action l W (fun _ => Exec.makeMembers ms) Within
  | _, [] => .pure within_nil
  | _, m :: ms => .bind (makeMember m) fun _ _ _ he => .map (makeMembers ms) fun _ h _ hes =>
    within_cons.mpr ⟨he.mono h, hes⟩

theorem makeMember :
    ∀ {W : World} (m : String × Json), Action l W (fun _ => Exec.makeMember m) Within
  | _, (_, j) => .map (makeDocument j) fun _ _ _ h => h

end

theorem parseDocument {args : List Value} {line : Nat} :
    Action l W (fun _ => Exec.parseDocument args line) Within := by
  refine .seq .text fun s _ => ?_
  split
  · exact makeDocument _
  · exact .never .raise

/-! ## Functions and constructors -/

/-- **A call of a function of the host.** -/
theorem callHost {f : HostFunction} {args : List Value} {line : Nat} (ha : Within W args) :
    Action l W (fun ev => ev.callHost f args line) Within := by
  cases f
  case console => exact .elementary .print fun _ => id
  case math => exact .plain .callMath fun _ => id
  case stringify => exact .plain .stringify fun _ => id
  case parse => exact parseDocument
  case keys => exact objectKeys
  case values => exact objectValues
  case entries => exact objectEntries
  case assign => exact .plain (.objectAssign ha) fun _ => id
  case freeze => exact .plain (.objectFreeze ha) fun _ => id
  case isArray => exact .seq (.elementary .heap) fun _ _ => .pure within_bool
  case arrayFrom => exact arrayFrom ha
  case arrayOf => exact makeArray (within_toArray.mpr ha)
  case isInteger | numberIsFinite | numberIsNaN => exact .pure within_bool
  case parseInt => exact .plain .parseInt fun _ => id
  case parseFloat => exact .plain .parseFloat fun _ => id
  case isNaN | isFinite => exact .seq .number fun _ _ => .pure within_bool
  case setTimeout | setInterval => exact .plain (.setTimer ha) fun _ => id
  case clearTimeout | clearInterval => exact .plain .clearTimer fun _ => id
  case queueMicrotask => exact .plain (.queueMicrotask ha) fun _ => id
  case promiseResolve => exact promiseResolve (ha.argument 0)
  case promiseReject => exact promiseReject (ha.argument 0)

/-- A constructor of the host makes what it is asked for. -/
theorem construct {h : HostObject} {args : List Value} {line : Nat} (ha : Within W args) :
    Action l W (fun ev => ev.construct h args line) Within := by
  have hfirst := ha.argument 0
  have hconvert (h : HostObject) : Action l W (fun _ => Exec.convert h args line) Within :=
    .plain .convert fun _ => id
  cases h
  case promise => exact newPromise hfirst
  case error c =>
    refine .ite (fun _ => ?_) fun _ => .seq .text fun _ _ => makeError
    exact .seq (P := Any) (.pure trivial) fun _ _ => makeError
  case array => exact newArray ha
  case object =>
    unfold Evaluator.construct
    dsimp only
    split
    · rename_i id hid
      exact .pure (hid ▸ hfirst)
    · exact makePlain within_nil
  case number => exact hconvert .number
  case string => exact hconvert .string
  case boolean => exact hconvert .boolean
  case console | math | json => exact .never (.misuse rfl)

theorem callConstructor {h : HostObject} {args : List Value} {line : Nat} (ha : Within W args) :
    Action l W (fun ev => ev.callConstructor h args line) Within := by
  unfold Evaluator.callConstructor
  split
  · exact .never (.misuse rfl)
  iterate 3 exact .never (.misuse rfl)
  · exact construct ha

/-! ## Methods -/

/-- `call`, `apply` and `bind` hand on the arguments that they were given. -/
theorem functionMethod {target : Value} {method : String} {args : List Value} {line : Nat}
    (ht : Within W target) (ha : Within W args) :
    Action l W (fun ev => ev.functionMethod target method args line) Within := by
  have hthis := ha.argument 0
  have hargs := ha.drop 1
  unfold Evaluator.functionMethod
  dsimp only
  split
  · exact apply ht hthis hargs
  · refine .seq (.elementary .heap) fun h hh => apply ht hthis (within_toList.mpr ?_)
    cases hi : h.items? (argument (args.drop 1) 0) with
    | none => exact within_toArray.mpr within_nil
    | some items => exact within_some.mp (hi ▸ hh.items?)
  · exact make (within_boundBody.mpr ⟨ht, hthis, hargs⟩) rfl nofun
  · exact .never (.misuse rfl)

/-- **A call of a method of the host.** -/
theorem callMethod {receiver : Value} {method : String} {args : List Value} {line : Nat}
    (hr : Within W receiver) (ha : Within W args) :
    Action l W (fun ev => ev.callMethod receiver method args line) Within := by
  cases receiver
  case string s => exact stringMethod ha
  case number x => exact .plain .numberMethod fun _ => id
  case object id =>
    have hid := within_object.mp hr
    refine .seq .body? fun b hb => ?_
    split
    · exact arrayMethod hid ha
    · exact .plain .plainMethod fun _ h => h
    · exact register hid ha
    · exact functionMethod hr ha
  case function | host => exact functionMethod hr ha
  case undefined | null | bool | globalThis => exact .never (.misuse rfl)

end Action

end ScriptTrace
