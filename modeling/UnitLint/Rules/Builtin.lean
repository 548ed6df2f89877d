import UnitLint.Rules.Table

/-! # The built-in rule tables

One table for each unit type. -/

namespace UnitLint.RuleTable

/-- References to images: built here, or described by a unit. -/
def imageUnits : Rule String := .canReference [.image, .build]

/-- References to networks. -/
def networkUnits : Rule String := .canReference [.network]

/-- References to volumes. -/
def volumeUnits : Rule String := .canReference [.volume]

/-- The ways to pull an image. -/
def pullPolicies : Rule String := .allowedValues ["always", "missing", "never", "newer"]

/-- Ports that are published. -/
def publishedPorts : Rule String :=
  .valuesMust .publishedPorts .always "invalid port format in PublishPort"

/-- The rules for containers. -/
def container : RuleTable where
  unitType := .container
  needed := ["Rootfs", "Pod", "Network", "HealthCmd", "HealthStartupCmd"]
  entries := [
    ("Image", [.requiredIfNotPresent "Rootfs", .conflictsWith ["Rootfs"], .imageNotAmbiguous,
      imageUnits]),
    ("Pull", [pullPolicies]),
    ("AutoUpdate", [.allowedValues ["registry", "local"]]),
    ("HealthOnFailure", [.allowedValues ["none", "kill", "restart", "stop"]]),
    ("Network", [networkUnits]),
    ("NetworkAlias", [.dependsOn "Network",
      .valuesMust .absent (.equals "Network" ["host", "none"])
        "NetworkAlias has no effect with Network=host or Network=none"]),
    ("Pod", [.hasSuffix ".pod", .canReference [.pod]]),
    ("StartWithPod", [.dependsOn "Pod"]),
    ("Volume", [volumeUnits]),
    ("PublishPort", [publishedPorts,
      .valuesMust .absent (.present "Pod")
        "PublishPort must not be set for containers that run in a pod"]),
    ("ExposeHostPort",
      [.valuesMust .exposedPorts .always "invalid port format in ExposeHostPort"]),
    ("ReadOnlyTmpfs", [.valuesMust .isNotTrue (.negated (.flag "ReadOnly"))
      "ReadOnlyTmpfs=true requires ReadOnly=true"]),
    ("HealthStartupCmd", [.dependsOn "HealthCmd"]),
    ("HealthStartupInterval", [.dependsOn "HealthStartupCmd"]),
    ("HealthStartupRetries", [.dependsOn "HealthStartupCmd"]),
    ("HealthStartupSuccess", [.dependsOn "HealthStartupCmd"]),
    ("HealthStartupTimeout", [.dependsOn "HealthStartupCmd"]),
    ("RemapUsers", [.deprecated]),
    ("RemapUid", [.deprecated]),
    ("RemapGid", [.deprecated]),
    ("RemapUidSize", [.deprecated]),
    ("UserNS", [.conflictsWith ["RemapUsers"]])]

/-- The rules for volumes. -/
def volume : RuleTable where
  unitType := .volume
  needed := []
  entries := [
    ("Image", [.imageNotAmbiguous, imageUnits,
      .valuesMust .present (.equals "Driver" ["image"])
        "key Image is required when Driver=image"]),
    ("Type", [.dependsOn "Device"])]

/-- The rules for deployments that a file describes. -/
def kube : RuleTable where
  unitType := .kube
  needed := []
  entries := [
    ("Yaml", [.required]),
    ("ExitCodePropagation", [.allowedValues ["all", "any", "none"]]),
    ("SetWorkingDirectory", [.allowedValues ["yaml", "unit"]]),
    ("Network", [networkUnits])]

/-- The rules for networks. -/
def network : RuleTable where
  unitType := .network
  needed := ["Subnet"]
  entries := [
    ("Driver", [.allowedValues ["bridge", "macvlan", "ipvlan"]]),
    ("IPAMDriver", [.allowedValues ["host-local", "dhcp", "none"]]),
    ("Gateway", [.dependsOn "Subnet"]),
    ("IPRange", [.dependsOn "Subnet"]),
    ("DNS", [.valuesMust .absent (.flag "DisableDNS")
      "key DNS cannot be used with DisableDNS=true"])]

/-- The rules for images. -/
def image : RuleTable where
  unitType := .image
  needed := []
  entries := [("Image", [.required, .imageNotAmbiguous])]

/-- The rules for builds. -/
def build : RuleTable where
  unitType := .build
  needed := []
  entries := [
    ("ImageTag", [.required]),
    ("File", [.requiredIfNotPresent "SetWorkingDirectory"]),
    ("Pull", [pullPolicies]),
    ("Network", [networkUnits]),
    ("Volume", [volumeUnits])]

/-- The rules for pods. -/
def pod : RuleTable where
  unitType := .pod
  needed := []
  entries := [
    ("Network", [networkUnits]),
    ("NetworkAlias", [.dependsOn "Network"]),
    ("Volume", [volumeUnits]),
    ("PublishPort", [publishedPorts])]

/-- The rule tables, in the order in which they are bound. -/
def builtin : List RuleTable := [container, volume, kube, network, image, build, pod]

end UnitLint.RuleTable
