import UnitLint.Catalog.Basic

/-! # The built-in catalog

The keys of the seven kinds of unit, group by group, with the way each is looked up. Keys that may
be repeated are marked `many`, the others `one`. -/

namespace UnitLint.Catalog

/-- A key that is given once. -/
def one (key : String) (mode : LookupMode) (group : String) : Field := ⟨group, key, mode, false⟩

/-- A key that may be repeated. -/
def many (key : String) (mode : LookupMode) (group : String) : Field := ⟨group, key, mode, true⟩

/-- The keys of the group `Container`. -/
def containerKeys : List (String → Field) :=
  [many "AddCapability" .allStrv, many "AddDevice" .all, many "AddHost" .all,
   many "Annotation" .allKeyVal, one "AutoUpdate" .last, one "CgroupsMode" .last,
   one "ContainerName" .last, many "ContainersConfModule" .all, many "DNS" .all,
   many "DNSOption" .all, many "DNSSearch" .all, many "DropCapability" .allStrv,
   one "Entrypoint" .last, many "Environment" .allKeyVal, many "EnvironmentFile" .all,
   one "EnvironmentHost" .boolean, one "Exec" .lastArgs, many "ExposeHostPort" .all,
   many "GIDMap" .all, many "GlobalArgs" .allArgs, one "Group" .last, many "GroupAdd" .all,
   one "HealthCmd" .last, one "HealthInterval" .last, one "HealthOnFailure" .last,
   one "HealthRetries" .int, one "HealthStartPeriod" .last, one "HealthStartupCmd" .last,
   one "HealthStartupInterval" .last, one "HealthStartupRetries" .int,
   one "HealthStartupSuccess" .int, one "HealthStartupTimeout" .last, one "HealthTimeout" .last,
   one "HostName" .last, one "IP" .last, one "IP6" .last, one "Image" .last,
   many "Label" .allKeyVal, one "LogDriver" .last, many "LogOpt" .allStrv, one "Mask" .last,
   many "Mount" .all, many "Network" .all, many "NetworkAlias" .all,
   one "NoNewPrivileges" .boolean, one "Notify" .last, one "PidsLimit" .int, one "Pod" .last,
   many "PodmanArgs" .allArgs, many "PublishPort" .all, one "Pull" .last, one "ReadOnly" .boolean,
   one "ReadOnlyTmpfs" .boolean, many "RemapGid" .all, many "RemapUid" .all,
   one "RemapUidSize" .int, one "RemapUsers" .last, one "Rootfs" .last, one "RunInit" .boolean,
   one "SeccompProfile" .last, many "Secret" .allArgs, one "SecurityLabelDisable" .boolean,
   one "SecurityLabelFileType" .last, one "SecurityLabelLevel" .last,
   one "SecurityLabelNested" .boolean, one "SecurityLabelType" .last, one "ShmSize" .last,
   one "StartWithPod" .boolean, one "StopSignal" .last, one "StopTimeout" .int,
   one "SubGIDMap" .last, one "SubUIDMap" .last, many "Sysctl" .allStrv, one "Timezone" .last,
   many "Tmpfs" .all, many "UIDMap" .all, many "Ulimit" .all, one "Unmask" .last, one "User" .last,
   one "UserNS" .last, many "Volume" .all, one "WorkingDir" .last]

/-- The keys of the group `Volume`. -/
def volumeKeys : List (String → Field) :=
  [many "ContainersConfModule" .all, one "Copy" .boolean, one "Device" .last, one "Driver" .last,
   many "GlobalArgs" .allArgs, one "Group" .last, one "Image" .last, many "Label" .allKeyVal,
   one "Options" .last, many "PodmanArgs" .allArgs, one "Type" .last, one "User" .last,
   one "VolumeName" .last]

/-- The keys of the group `Kube`. -/
def kubeKeys : List (String → Field) :=
  [many "AutoUpdate" .all, many "ConfigMap" .all, many "ContainersConfModule" .all,
   one "ExitCodePropagation" .last, many "GlobalArgs" .allArgs, one "KubeDownForce" .boolean,
   one "LogDriver" .last, many "Network" .all, many "PodmanArgs" .allArgs, many "PublishPort" .all,
   one "SetWorkingDirectory" .last, one "UserNS" .last, one "Yaml" .last]

/-- The keys of the group `Network`. -/
def networkKeys : List (String → Field) :=
  [many "ContainersConfModule" .all, one "DisableDNS" .boolean, many "DNS" .all,
   one "Driver" .last, many "Gateway" .all, many "GlobalArgs" .allArgs, one "IPAMDriver" .last,
   many "IPRange" .all, one "IPv6" .boolean, one "Internal" .boolean, many "Label" .allKeyVal,
   one "NetworkName" .last, one "Options" .last, many "PodmanArgs" .allArgs, many "Subnet" .all]

/-- The keys of the group `Image`. -/
def imageKeys : List (String → Field) :=
  [one "AllTags" .boolean, one "Arch" .last, one "AuthFile" .last, one "CertDir" .last,
   many "ContainersConfModule" .all, one "Creds" .last, one "DecryptionKey" .last,
   many "GlobalArgs" .allArgs, one "Image" .last, one "ImageTag" .last, one "OS" .last,
   many "PodmanArgs" .allArgs, one "TLSVerify" .boolean, one "Variant" .last]

/-- The keys of the group `Build`. -/
def buildKeys : List (String → Field) :=
  [many "Annotation" .allKeyVal, one "Arch" .last, one "AuthFile" .last,
   many "ContainersConfModule" .all, many "DNS" .all, many "DNSOption" .all, many "DNSSearch" .all,
   many "Environment" .allKeyVal, one "File" .last, one "ForceRM" .boolean,
   many "GlobalArgs" .allArgs, many "GroupAdd" .all, many "ImageTag" .all, many "Label" .allKeyVal,
   many "Network" .all, many "PodmanArgs" .allArgs, one "Pull" .last, many "Secret" .allArgs,
   one "SetWorkingDirectory" .last, one "Target" .last, one "TLSVerify" .boolean,
   one "Variant" .last, many "Volume" .all]

/-- The keys of the group `Pod`. -/
def podKeys : List (String → Field) :=
  [many "AddHost" .all, many "ContainersConfModule" .all, many "DNS" .all, many "DNSOption" .all,
   many "DNSSearch" .all, many "GIDMap" .all, many "GlobalArgs" .allArgs, one "IP" .last,
   one "IP6" .last, many "Network" .all, many "NetworkAlias" .all, one "PodName" .last,
   many "PodmanArgs" .allArgs, many "PublishPort" .all, one "ServiceName" .last,
   one "ShmSize" .last, one "SubGIDMap" .last, one "SubUIDMap" .last, many "UIDMap" .all,
   one "UserNS" .last, many "Volume" .all]

/-- The fields of the built-in catalog, in order. -/
def builtinFields : List Field :=
  containerKeys.map (· "Container") ++
    volumeKeys.map (· "Volume") ++
    kubeKeys.map (· "Kube") ++
    networkKeys.map (· "Network") ++
    imageKeys.map (· "Image") ++
    buildKeys.map (· "Build") ++
    podKeys.map (· "Pod")

/-- The built-in catalog. -/
def builtin : Catalog := ofFields builtinFields

end UnitLint.Catalog
