import LuaHost.Json.Printer
import LuaHost.Proofs.Host.Protection
import LuaHost.Proofs.Host.RawAssignment
import LuaHost.Proofs.Host.Sequences
import LuaHost.Proofs.Json.Copy
import LuaHost.Proofs.Json.Marking
import LuaHost.Proofs.Json.Objects
import LuaHost.Proofs.Protocol.Callability
import LuaHost.Proofs.Protocol.Elements
import LuaHost.Proofs.Protocol.HopLimit
import LuaHost.Proofs.Protocol.Pairs
import LuaHost.Proofs.Protocol.ReadBack
import LuaHost.Proofs.Protocol.Reading
import LuaHost.Proofs.Protocol.Shifting
import LuaHost.Proofs.Returns.Conversions
import LuaHost.Proofs.Returns.Equality
import LuaHost.Proofs.Returns.Naming
import LuaHost.Proofs.Returns.Sharing
import LuaHost.Proofs.Table.Appending
import LuaHost.Proofs.Table.Concatenation
import LuaHost.Proofs.Table.Inverse
import LuaHost.Proofs.Value.Equality
import LuaHost.Proofs.Value.Subtypes
import LuaHost.Protocol.Metavalue
