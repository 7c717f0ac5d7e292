import FastProto.Unknown
import FastProto.FastConstruct
import FastProto.LinkOrder
import FastProto.LinkClosure
import FastProto.TimeLimits
import FastProto.NaiveEncode
import FastProto.OneofDecode
import FastProto.OneofGroups
import FastProto.NestingDecode
import FastProto.Schema
import FastProto.Render
import FastProto.Classify
import FastProto.Validate
import FastProto.Generated
import FastProto.ModuleSet
import FastProto.ExternalImports
import FastProto.LoadedClasses
import FastProto.DescriptorBinding
import FastProto.HygienicModules
import FastProto.TypeResolution
import FastProto.Truncation
import FastProto.Footprint
import FastProto.Acceptance
import FastProto.ForwardCompat
import FastProto.Varint
import FastProto.FieldLookup
import FastProto.PanicFree
import FastProto.PackedForms
import FastProto.ParseOrder
import FastProto.GeneratedSessions
import FastProto.ImportResolution
import FastProto.SeparateRuns
import FastProto.GeneratedEvolution
import FastProto.ReferenceResolution
