import Loti.CommandEffects

/-!
The way of a published text from the command line of `src/app/loti/loti.cpp` to the event: the
client
joins its arguments by spaces into a request line, and the daemon cuts the line at the first
newline,
splits it into words again and joins the words by single spaces.
-/

namespace Loti.Lotid

open Std StateExcept

/-! The client -/

def joinFrom (verb : Text) (words : List Text) : Text :=
  verb ++ words.flatMap fun word => [32] ++ word

/-- The request of a command line after the global options; empty for an unknown or malformed
one. -/
def toRequest (a : List Text) (range : Text) : Text :=
  let c := a.getD 0 []
  if a = [] then []
  else if c = text "status" then text "status"
  else if c = text "events" then text "events"
  else if c = text "publish" ∧ 2 ≤ a.length then joinFrom (text "publish") (a.drop 1)
  else if c = text "bounds" ∧ 2 ≤ a.length then text "bounds " ++ a.getD 1 [] ++ range
  else if c = text "chain" ∧ 2 ≤ a.length then text "chain " ++ a.getD 1 [] ++ range
  else if c = text "order" ∧ 3 ≤ a.length then
    text "order " ++ a.getD 1 [] ++ [32] ++ a.getD 2 [] ++ range
  else if c = text "key" then text "key"
  else if c = text "stop" then text "quit"
  else if c = text "event" ∧ 3 ≤ a.length ∧ a.getD 1 [] = text "show" then
    text "event " ++ a.getD 2 []
  else if c = text "event" ∧ 3 ≤ a.length ∧ a.getD 1 [] = text "find" then
    joinFrom (text "event-find") (a.drop 2)
  else if c = text "peer" ∧ 3 ≤ a.length ∧ a.getD 1 [] = text "add" then
    text "peer-add " ++ a.getD 2 []
  else if c = text "peer" ∧ 2 ≤ a.length ∧ a.getD 1 [] = text "ls" then text "peer-ls"
  else if c = text "node" ∧ 2 ≤ a.length ∧ a.getD 1 [] = text "status" then text "status"
  else if c = text "node" ∧ 2 ≤ a.length ∧ a.getD 1 [] = text "stop" then text "quit"
  else []

theorem joined_cons (word more : Text) (words : List Text) :
    joined (word :: more :: words) = word ++ 32 :: joined (more :: words) := by
  simp [joined, List.intercalate]

theorem joinFrom_eq {words : List Text} (some : words ≠ []) (verb : Text) :
    joinFrom verb words = verb ++ 32 :: joined words := by
  have spaced : words.flatMap (fun word => [32] ++ word) = 32 :: joined words := by
    induction words with
    | nil => exact absurd rfl some
    | cons word words ih =>
        cases words with
        | nil => simp [joined, List.intercalate]
        | cons more words => rw [List.flatMap_cons, ih (by simp), joined_cons, List.append_assoc,
            List.singleton_append]
  rw [joinFrom, spaced]

theorem toRequest_publish {texts : List Text} (some : texts ≠ []) (range : Text) :
    toRequest (text "publish" :: texts) range = text "publish" ++ 32 :: joined texts := by
  have status : text "publish" ≠ text "status" := by simp
  have events : text "publish" ≠ text "events" := by simp
  have many : 2 ≤ (text "publish" :: texts).length := by
    have := List.length_pos_of_ne_nil some
    rw [List.length_cons]
    omega
  rw [← joinFrom_eq some]
  simp only [toRequest, List.getD_cons_zero, reduceCtorEq, if_false, status, events, many, and_self,
    if_true, List.drop_one, List.tail_cons]

theorem toRequest_publish_nil (range : Text) : toRequest [text "publish"] range = [] := by
  have others : text "publish" ∉ [text "status", text "events", text "bounds", text "chain",
      text "order", text "key", text "stop", text "event", text "peer", text "node"] := by simp
  simp only [List.mem_cons, List.not_mem_nil, or_false, not_or] at others
  simp [toRequest, others]

/-! Words -/

def Blank (c : UInt8) : Prop := c = 32 ∨ c = 9 ∨ c = 13

def Word (word : Text) : Prop := word ≠ [] ∧ ∀ c ∈ word, ¬Blank c

theorem tokenizeFrom_words {cur s : Text} (begun : ∀ c ∈ cur, ¬Blank c) :
    ∀ word ∈ tokenizeFrom cur s, Word word := by
  induction s generalizing cur with
  | nil =>
      intro word member
      simp only [tokenizeFrom] at member
      split at member
      · cases member
      · rename_i more
        rw [List.mem_singleton.mp member]
        exact ⟨more, begun⟩
  | cons c rest ih =>
      intro word member
      simp only [tokenizeFrom] at member
      split at member
      · split at member
        · exact ih (by simp) word member
        · rename_i more
          rcases List.mem_cons.mp member with rfl | later
          · exact ⟨more, begun⟩
          · exact ih (by simp) word later
      · rename_i inside
        refine ih (fun other listed => ?_) word member
        rcases List.mem_append.mp listed with earlier | here
        · exact begun other earlier
        · rw [List.mem_singleton.mp here]
          exact inside

theorem tokenizeFrom_subset {cur s word : Text} (member : word ∈ tokenizeFrom cur s) :
    word ⊆ cur ++ s := by
  induction s generalizing cur with
  | nil =>
      simp only [tokenizeFrom] at member
      split at member
      · cases member
      · rw [List.mem_singleton.mp member, List.append_nil]
        exact fun _ inside => inside
  | cons c rest ih =>
      have later : rest ⊆ cur ++ c :: rest := fun _ inside => List.mem_append_right _
        (List.mem_cons_of_mem _ inside)
      simp only [tokenizeFrom] at member
      split at member
      · split at member
        · exact List.Subset.trans (ih member) later
        · rcases List.mem_cons.mp member with rfl | other
          · exact List.subset_append_left _ _
          · exact List.Subset.trans (ih other) later
      · have inside := ih member
        rwa [List.append_assoc, List.singleton_append] at inside

theorem tokenizeFrom_append {cur word rest : Text} (plain : ∀ c ∈ word, ¬Blank c) :
    tokenizeFrom cur (word ++ rest) = tokenizeFrom (cur ++ word) rest := by
  induction word generalizing cur with
  | nil => simp
  | cons c word ih =>
      have inside : ¬(c = 32 ∨ c = 9 ∨ c = 13) := plain c List.mem_cons_self
      rw [List.cons_append, tokenizeFrom, if_neg inside, ih fun other member =>
        plain other (List.mem_cons_of_mem _ member)]
      simp

theorem tokenize_cons {word rest : Text} (plain : Word word) :
    tokenize (word ++ 32 :: rest) = word :: tokenize rest := by
  rw [tokenize, tokenizeFrom_append plain.2, tokenizeFrom, if_pos (Or.inl rfl),
    List.nil_append, if_neg plain.1]
  rfl

theorem tokenize_joined {words : List Text} (plain : ∀ word ∈ words, Word word) :
    tokenize (joined words) = words := by
  induction words with
  | nil => rfl
  | cons word words ih =>
      have here := plain word List.mem_cons_self
      cases words with
      | nil =>
          have alone : joined [word] = word ++ [] := by simp [joined, List.intercalate]
          rw [alone, tokenize, tokenizeFrom_append here.2, List.nil_append,
            tokenizeFrom, if_neg here.1]
      | cons more words =>
          rw [joined_cons, tokenize_cons here, ih fun other member =>
            plain other (List.mem_cons_of_mem _ member)]

/-- Words without tab, newline or carriage return, with single spaces between them and none
around. -/
def SingleSpaced (arg : Text) : Prop :=
  ∀ word ∈ arg.splitOn 32, word ≠ [] ∧ 9 ∉ word ∧ 10 ∉ word ∧ 13 ∉ word

theorem splitOn_joined {texts : List Text} (some : texts ≠ []) :
    (joined texts).splitOn 32 = texts.flatMap (List.splitOn 32) := by
  induction texts with
  | nil => exact absurd rfl some
  | cons first texts ih =>
      cases texts with
      | nil => simp [joined, List.intercalate]
      | cons second texts =>
          rw [joined_cons, List.splitOn_append_cons_self, ih (by simp)]
          rfl

theorem mem_splitOn_joined {texts : List Text} (some : texts ≠ []) {word : Text} :
    word ∈ (joined texts).splitOn 32 ↔ ∃ arg ∈ texts, word ∈ arg.splitOn 32 := by
  rw [splitOn_joined some, List.mem_flatMap]

theorem notMem_of_mem_splitOn {s word : Text} (member : word ∈ s.splitOn 32) : 32 ∉ word := by
  induction s generalizing word with
  | nil =>
      rw [List.splitOn_nil, List.mem_singleton] at member
      simp [member]
  | cons c s ih =>
      rw [List.splitOn_cons_eq_if_modifyHead] at member
      split at member
      · rcases List.mem_cons.mp member with rfl | later
        · simp
        · exact ih later
      · rename_i other
        obtain ⟨first, words, parts⟩ := List.exists_cons_of_ne_nil (List.splitOn_ne_nil 32 s)
        rw [parts] at ih
        rw [parts, List.modifyHead_cons] at member
        rcases List.mem_cons.mp member with rfl | later
        · have apart : (32 : UInt8) ≠ c := fun same => other (by simp [same])
          simpa [apart] using ih List.mem_cons_self
        · exact ih (List.mem_cons_of_mem _ later)

theorem mem_joined {words : List Text} {c : UInt8} (member : c ∈ joined words) :
    c = 32 ∨ ∃ word ∈ words, c ∈ word := by
  induction words with
  | nil => simp [joined, List.intercalate] at member
  | cons word words ih =>
      cases words with
      | nil => exact Or.inr ⟨word, by simp, by simpa [joined, List.intercalate] using member⟩
      | cons more words =>
          rw [joined_cons, List.mem_append, List.mem_cons] at member
          rcases member with here | space | later
          · exact Or.inr ⟨word, List.mem_cons_self, here⟩
          · exact Or.inl space
          · exact (ih later).imp_right fun ⟨found, listed, inside⟩ =>
              ⟨found, List.mem_cons_of_mem _ listed, inside⟩

theorem joined_tokenize_iff {texts : List Text} (some : texts ≠ [])
    (published : tokenize ((joined texts).takeWhile (· ≠ 10)) ≠ []) :
    joined (tokenize ((joined texts).takeWhile (· ≠ 10))) = joined texts ↔ ∀ arg ∈ texts,
    SingleSpaced arg := by
  constructor
  · intro same arg listed word member
    have words : (joined texts).splitOn 32 = tokenize ((joined texts).takeWhile (· ≠ 10)) := by
      conv_lhs => rw [← same]
      refine List.splitOn_intercalate 32 (fun word listed space => ?_) published
      exact (tokenizeFrom_words (by simp) word listed).2 32 space (Or.inl rfl)
    have kept : word ∈ tokenize ((joined texts).takeWhile (· ≠ 10)) :=
      words ▸ (mem_splitOn_joined some).mpr ⟨arg, listed, member⟩
    obtain ⟨nonempty, plain⟩ := tokenizeFrom_words (by simp) word kept
    refine ⟨nonempty, fun tab => plain 9 tab (by simp [Blank]), fun newline => ?_, fun cr =>
      plain 13 cr (by simp [Blank])⟩
    have stays := tokenizeFrom_subset kept newline
    simpa using List.mem_takeWhile_imp stays
  · intro plain
    have words : ∀ word ∈ (joined texts).splitOn 32, Word word ∧ 10 ∉ word := by
      intro word member
      obtain ⟨arg, listed, within⟩ := (mem_splitOn_joined some).mp member
      obtain ⟨nonempty, tab, newline, cr⟩ := plain arg listed word within
      refine ⟨⟨nonempty, fun c inside blank => ?_⟩, newline⟩
      rcases blank with rfl | rfl | rfl
      · exact notMem_of_mem_splitOn member inside
      · exact tab inside
      · exact cr inside
    have rejoined : joined ((joined texts).splitOn 32) = joined texts := List.intercalate_splitOn 32
    have whole : (joined texts).takeWhile (· ≠ 10) = joined texts := by
      rw [List.takeWhile_eq_self_iff]
      intro c member
      rw [← rejoined] at member
      rw [decide_eq_true_eq]
      rintro rfl
      rcases mem_joined member with space | ⟨word, listed, inside⟩
      · exact absurd space (by decide)
      · exact (words word listed).2 inside
    have retokenized := tokenize_joined fun word listed => (words word listed).1
    rw [rejoined] at retokenized
    rw [whole, retokenized, rejoined]

/-! The published event -/

theorem command_publish {σ : Type} [Store σ] (setup : Setup) (rest : List Text) :
    command (σ := σ) setup (text "publish" :: rest) = publish setup (text "publish" :: rest) := by
  have found := lookup_verb setup (text "publish") ((verbs (σ := σ) setup).take 0) rfl (by simp)
  simp only [command, List.headD_cons, found]

theorem publishEvent_data {σ : Type} [Store σ] (env : NodeEnv) (data : Bytes) :
    Yields (fun event => event.data = data) (publishEvent (σ := σ) env data) := by
  intro s
  simp [publishEvent, insertEvent, nextSalt, sign, makeEvent]

theorem publish_event {σ : Type} [Store σ] (setup : Setup) (words : List Text) (d : Members σ) :
    Ends (publish setup (text "publish" :: words)) d
      (fun reply after => reply.error = [] → words ≠ [] ∧ ∃ event, event.data = joined words ∧
        publishEvent setup.env (joined words) d.node = .ok event after.node)
      (fun _ _ => True) := by
  cases words with
  | nil =>
      have named : (usage "usage: publish <text>").error ≠ [] := by simp [usage]
      exact fun succeeded => absurd succeeded named
  | cons word words =>
      simp only [publish, onNode, ends_bind, ends_zoom, ends_modify, ends_pure]
      refine (ends_self.and (publishEvent_data setup.env _ _)).mono ?_ fun _ _ _ => trivial
      rintro event after ⟨ran, data⟩ -
      exact ⟨by simp, event, data, ran⟩

theorem takeWhile_framed (s : Text) : (s ++ [10]).takeWhile (· ≠ 10) = s.takeWhile (· ≠ 10) := by
  rw [List.takeWhile_append]
  split
  · rename_i whole
    rw [(List.takeWhile_prefix _).eq_of_length whole]
    simp
  · rfl

theorem requestLine_publish {texts : List Text} (some : texts ≠ []) {range acc : Text}
    (sent : acc <+: toRequest (text "publish" :: texts) range ++ [10]) (framed : 10 ∈ acc) :
    requestLine acc = text "publish" :: tokenize ((joined texts).takeWhile (· ≠ 10)) := by
  obtain ⟨rest, whole⟩ := sent
  have verb : Word (text "publish") := by
    unfold Word Blank
    decide +kernel
  have unbroken : ∀ c ∈ text "publish" ++ [32], decide (c ≠ 10) = true := by decide +kernel
  have line : (text "publish" ++ 32 :: joined texts ++ [10]).takeWhile (· ≠ 10) =
      text "publish" ++ 32 :: (joined texts).takeWhile (· ≠ 10) := by
    have regrouped : text "publish" ++ 32 :: joined texts ++ [10] = (text "publish" ++ [32]) ++
      (joined texts ++ [10]) := by
      simp
    rw [regrouped, List.takeWhile_append_of_pos unbroken, takeWhile_framed, List.append_assoc]
    rfl
  rw [← requestLine_append framed, whole, toRequest_publish some, requestLine, line,
    tokenize_cons verb]

theorem command_nil {σ : Type} [Store σ] (setup : Setup) (d : Members σ) :
    Ends (command setup []) d (fun reply _ => reply.error ≠ []) (fun _ _ => True) := by
  have named : [] ∉ [text "publish", text "event", text "event-find", text "events",
      text "peer-add", text "peer-ls", text "status", text "key", text "save", text "db-stat",
      text "db-gc", text "db-backup", text "db-restore",
      text "quit", text "exit"] := by simp
  refine command_cases setup (fun entry member nameless => ?_) (by decide +kernel)
  refine absurd ?_ named
  have listed : entry.1 ∈ (verbs (σ := σ) setup).map Prod.fst := List.mem_map_of_mem member
  rw [nameless] at listed
  exact listed

theorem dispatchGuarded_succeeds {σ : Type} [Store σ] {setup : Setup} {args : List Text}
    {replyFd : Option Nat} {s after : Daemon (Members σ)} {reply : Reply}
    (prompt : ¬Deferred (args.headD []))
    (answered : dispatchGuarded (lotidHost setup) args replyFd s = .ok reply after)
    (succeeded : reply.error = []) (result : Reply → Members σ → Prop)
    (ends : Ends (command setup args) s.node (fun reply node => reply.error = [] →
      result reply node) (fun _ _ => True)) :
    result reply after.node := by
  have named : text "command failed: " ≠ [] := by simp
  have guarded : Ends (dispatchGuarded (lotidHost setup) args replyFd) s
      (fun reply after => reply.error = [] → result reply after.node) (fun _ _ => True) := by
    rw [dispatchGuarded, ends_tryCatch, dispatch_command setup prompt]
    refine ends.mono (fun _ _ holds => holds) fun fault node _ => ?_
    split
    · exact fun impossible => absurd impossible (by simp [named])
    · trivial
  exact guarded.of_ok answered succeeded

/-- Whatever part of the request has been read when its line is complete: if the command succeeds,
the event holds the arguments joined by single spaces if and only if each of them is
single-spaced. -/
theorem publishedData_iff {σ : Type} [Store σ] (setup : Setup) (texts : List Text)
    (range acc : Text) (sent : acc <+: toRequest (text "publish" :: texts) range ++ [10])
    (framed : 10 ∈ acc) (s after : Daemon (Members σ)) (replyFd : Option Nat) (reply : Reply)
    (answered : dispatchGuarded (lotidHost setup) (requestLine acc) replyFd s = .ok reply after)
    (succeeded : reply.error = []) :
    ∃ event, publishEvent setup.env event.data s.node.node = .ok event after.node.node ∧
      (event.data = joined texts ↔ ∀ arg ∈ texts, SingleSpaced arg) := by
  by_cases some : texts = []
  · -- the client has not sent a request at all
    subst some
    rw [toRequest_publish_nil, List.nil_append] at sent
    obtain ⟨rest, whole⟩ := sent
    have line : requestLine acc = [] := by
      rw [← requestLine_append framed, whole]
      rfl
    rw [line] at answered
    have prompt : ¬Deferred (([] : List Text).headD []) := by simp [Deferred]
    have ends := (command_nil setup s.node).mono (fun reply _ failed (_ : reply.error = []) =>
      failed) fun _ _ _ => trivial
    exact absurd succeeded
      (dispatchGuarded_succeeds prompt answered succeeded (fun reply _ => reply.error ≠ []) ends)
  · have line := requestLine_publish some sent framed
    rw [line] at answered
    have prompt :
      ¬Deferred ((text "publish" :: tokenize ((joined texts).takeWhile (· ≠ 10))).headD []) := by
      simp [Deferred]
    have ends := publish_event setup (tokenize ((joined texts).takeWhile (· ≠ 10))) s.node
    rw [← command_publish] at ends
    obtain ⟨words, event, data, published⟩ :=
      dispatchGuarded_succeeds prompt answered succeeded _ ends
    rw [← data] at published
    refine ⟨event, published, ?_⟩
    rw [data]
    exact joined_tokenize_iff some words

def spacedTexts : List Text := [text "a b", text "c"]

theorem publishedData_iff_sample : ∃ reply after event,
    dispatchGuarded (lotidHost sampleSetup) (requestLine (text "publish a b c\n"))
      (some 5) sampleDaemon = .ok reply after ∧
      publishEvent sampleSetup.env event.data sampleDaemon.node.node = .ok event after.node.node ∧
      (event.data = joined spacedTexts ↔ ∀ arg ∈ spacedTexts, SingleSpaced arg) := by
  have ran :
      Ends (dispatchGuarded (lotidHost sampleSetup) (requestLine (text "publish a b c\n"))
        (some 5)) sampleDaemon
      (fun reply _ => reply.error = []) (fun _ _ => False) := by decide +kernel
  obtain ⟨reply, after, answered, succeeded⟩ := ran.returns fun _ _ never => never
  obtain ⟨event, published, exact⟩ := publishedData_iff sampleSetup spacedTexts []
    (text "publish a b c\n") (by decide +kernel) (by decide +kernel) sampleDaemon after
    (some 5) reply answered succeeded
  exact ⟨reply, after, event, answered, published, exact⟩

/-- Two spaces in an argument become one. -/
theorem publishedData_loses_space :
    toRequest [text "publish", text "a  b"] [] = text "publish a  b" ∧
    Ends (dispatchGuarded (lotidHost sampleSetup) (requestLine (text "publish a  b\n")) (some 5))
      sampleDaemon (fun reply after => reply.error = [] ∧
        (Store.eventBySeq after.node.node.store 0).toOption.map Event.data = some (text "a b"))
      (fun _ _ => False) ∧
    text "a b" ≠ joined [text "a  b"] := by
  decide +kernel

end Loti.Lotid
