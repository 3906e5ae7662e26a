import BrickScope.Decode.Format
import BrickScope.Template.Token

/-!
# Formats of tags and tokens
-/

namespace BrickScope.Template

instance : Format TagKind :=
  Format.ofNames [("Output", .output), ("Statement", .statement), ("Comment", .comment)]

instance : Format TokenKind :=
  Format.ofNames [("Character", .character), ("Identifier", .identifier), ("Variable", .variable),
    ("String", .string), ("Number", .number), ("Error", .error)]

instance : Format Tag :=
  Record.format ⟨.output, 0, 0, "", false⟩
    [.mandatory "kind" Tag.kind fun v t => { t with kind := v },
      .mandatory "start" Tag.start fun v t => { t with start := v },
      .mandatory "end" Tag.stop fun v t => { t with stop := v },
      .mandatory "content" Tag.content fun v t => { t with content := v },
      .mandatory "terminated" Tag.terminated fun v t => { t with terminated := v }]

instance : Format Token :=
  Record.format ⟨0, 0, .error, ""⟩
    [.mandatory "index" Token.start fun v t => { t with start := v },
      .mandatory "end" Token.stop fun v t => { t with stop := v },
      .mandatory "token_type" Token.kind fun v t => { t with kind := v },
      .mandatory "str_value" Token.text fun v t => { t with text := v }]

end BrickScope.Template
