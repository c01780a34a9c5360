/-!
# Identifiers

The 64-bit words that name members and groups, weigh votes and number memberships.
-/

namespace Ensemble

/-- Names a member; the content of its `myid` file. -/
abbrev ServerId := UInt64

abbrev GroupId := UInt64

abbrev Weight := UInt64

/-- Numbers a membership. Texts write it in hexadecimal. -/
abbrev Version := UInt64

end Ensemble
