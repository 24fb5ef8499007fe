import TinyKv.Api.Codec
import TinyKv.Lib.Lines

/-!
# Encoding a decoded request

The client decodes every line it is given and sends the encoding of what it decoded. A token is not
empty and has no white space in it (`mem_tokens`), so the tokens of the encoding are the command's
name and the arguments again (`tokens_joined`), and every command's name is read as that command
(`parseCommand_commandText`): decoding and encoding once more changes nothing (`reencoded_request`).
-/

namespace TinyKv.protocol

open Bytes

/-- The canonical name of a command. -/
def commandText : Command → Bytes
  | .PUT => "PUT"
  | .GET => "GET"
  | .DEL => "DEL"
  | .EXIT => "EXIT"
  | ._FLUSH => "_FLUSH"
  | .UNKNOWN => "UNKNOWN"

theorem parseCommand_commandText (c : Command) : parseCommand (commandText c) = c := by
  cases c <;> decide

/-- What a token is: not empty, and free of white space. -/
def IsToken (token : Bytes) : Prop := token ≠ [] ∧ ∀ b ∈ token, isSpace b = false

theorem isToken_of_all {token : Bytes} (hne : token ≠ [])
    (h : token.all (fun b => !isSpace b) = true) : IsToken token := by
  refine ⟨hne, fun b hb => ?_⟩
  have hspace := List.all_eq_true.1 h b hb
  rwa [Bool.not_eq_true'] at hspace

theorem isToken_commandText (c : Command) : IsToken (commandText c) := by
  apply isToken_of_all
  · cases c <;> decide
  · cases c <;> rfl

/-! ## Tokens -/

theorem mem_tokens {line token : Bytes} (h : token ∈ tokens line) : IsToken token := by
  obtain ⟨hmem, hne⟩ := List.mem_filter.1 h
  exact ⟨of_decide_eq_true hne, (Lines.mem_splitOnP hmem).1⟩

/-- A separator separates the tokens in front of it from those behind it. -/
theorem tokens_append_cons {sep : UInt8} (hsep : isSpace sep = true) (a rest : Bytes) :
    tokens (a ++ sep :: rest) = tokens a ++ tokens rest := by
  rw [tokens, List.splitOnP_append_cons a rest hsep, List.filter_append]
  rfl

theorem tokens_of_isToken {token : Bytes} (h : IsToken token) : tokens token = [token] := by
  rw [tokens, List.splitOnP_eq_singleton h.2]
  simp [h.1]

/-- **Tokens come back** from the line that they make. -/
theorem tokens_joined {first : Bytes} {args : List Bytes} (hfirst : IsToken first)
    (hargs : ∀ arg ∈ args, IsToken arg) :
    tokens (first ++ args.flatMap fun arg => (" " : Bytes) ++ arg) = first :: args := by
  induction args generalizing first with
  | nil =>
    rw [List.flatMap_nil, List.append_nil]
    exact tokens_of_isToken hfirst
  | cons arg args ih =>
    have hrest := ih (hargs arg List.mem_cons_self) fun a ha => hargs a (List.mem_cons_of_mem _ ha)
    have hblank : first ++ ((arg :: args).flatMap fun arg => (" " : Bytes) ++ arg) =
        first ++ 32 :: (arg ++ args.flatMap fun arg => (" " : Bytes) ++ arg) := by
      rw [List.flatMap_cons, List.append_assoc]
      rfl
    rw [hblank, tokens_append_cons rfl, tokens_of_isToken hfirst, hrest]
    rfl

/-! ## Requests -/

/-- A request in front of its line feed. -/
def requestLine (req : Request) : Bytes :=
  commandText req.command ++ req.args.flatMap fun arg => (" " : Bytes) ++ arg

theorem encodeRequest_eq (req : Request) : encodeRequest req = requestLine req ++ [10] := by
  obtain ⟨command, args⟩ := req
  cases command <;> rfl

theorem decodeLine_requestLine {req : Request} (h : ∀ arg ∈ req.args, IsToken arg) :
    decodeLine (requestLine req) = .ok req := by
  rw [decodeLine, requestLine, tokens_joined (isToken_commandText _) h]
  dsimp only
  rw [parseCommand_commandText]

theorem isToken_of_decodeLine {line : Bytes} {req : Request} (h : decodeLine line = .ok req) :
    ∀ arg ∈ req.args, IsToken arg := by
  unfold decodeLine at h
  split at h
  · cases h
  · rename_i cmdStr args htokens
    cases h
    intro arg harg
    have hmem : arg ∈ tokens line := htokens ▸ List.mem_cons_of_mem _ harg
    exact mem_tokens hmem

theorem newLine_not_mem_requestLine {req : Request} (h : ∀ arg ∈ req.args, IsToken arg) :
    (10 : UInt8) ∉ requestLine req := by
  have htoken : ∀ {token : Bytes}, IsToken token → (10 : UInt8) ∉ token := by
    intro token ht hmem
    exact absurd (ht.2 10 hmem) (by decide)
  intro hmem
  rcases List.mem_append.1 hmem with hmem | hmem
  · exact htoken (isToken_commandText _) hmem
  · obtain ⟨arg, harg, hmem⟩ := List.mem_flatMap.1 hmem
    rcases List.mem_append.1 hmem with hmem | hmem
    · exact absurd hmem (by decide)
    · exact htoken (h arg harg) hmem

/-- The line feed separates the last token from nothing. -/
theorem decodeLine_encodeRequest {req : Request} (h : ∀ arg ∈ req.args, IsToken arg) :
    decodeLine (encodeRequest req) = .ok req := by
  have hfeed : tokens (requestLine req ++ [10]) = tokens (requestLine req) := by
    rw [tokens_append_cons rfl]
    exact List.append_nil _
  rw [encodeRequest_eq, decodeLine, hfeed]
  exact decodeLine_requestLine h

/-- **Encoding a decoded request does not change it**: it becomes one line, and decoding that line
gives the request again. Any request whose arguments are tokens comes back from its encoding. -/
theorem reencoded_request :
    (∀ line req, decodeLine line = .ok req →
      ∃ body, encodeRequest req = body ++ [10] ∧ (10 : UInt8) ∉ body ∧ decodeLine body = .ok req) ∧
    ∀ req : Request, (∀ arg ∈ req.args, arg ≠ [] ∧ ∀ b ∈ arg, isSpace b = false) →
      decodeLine (encodeRequest req) = .ok req := by
  refine ⟨?_, ?_⟩
  · intro line req h
    have hargs := isToken_of_decodeLine h
    exact ⟨requestLine req, encodeRequest_eq req, newLine_not_mem_requestLine hargs,
      decodeLine_requestLine hargs⟩
  · intro req h
    exact decodeLine_encodeRequest h

/-- A line with blanks around its tokens and an unknown command. -/
theorem reencoded_request_unknown :
    (∃ body, encodeRequest ⟨.UNKNOWN, ["a", "b"]⟩ = body ++ [10] ∧ (10 : UInt8) ∉ body ∧
      decodeLine body = .ok ⟨.UNKNOWN, ["a", "b"]⟩) ∧
    decodeLine (encodeRequest ⟨.PUT, ["a", "b"]⟩) = .ok ⟨.PUT, ["a", "b"]⟩ := by
  refine ⟨reencoded_request.1 "\t sCan  a b\r" _ (by rfl), reencoded_request.2 _ fun arg harg => ?_⟩
  rcases List.mem_cons.1 harg with rfl | harg
  · exact isToken_of_all (by decide) rfl
  · rw [List.mem_singleton.1 harg]
    exact isToken_of_all (by decide) rfl

end TinyKv.protocol
